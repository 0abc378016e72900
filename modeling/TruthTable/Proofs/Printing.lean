import TruthTable.Proofs.Grammar
import TruthTable.Proofs.Validation

/-!
# Printing a tree and reading it back

A printed tree has single spaces where the reader needs a word to end and nowhere
else. So a tree comes back from its own text exactly if all its names are words,
whether or not it is valid. A tree that was read has no other names, and whatever
is wrong with it, its symbols are not.
-/

namespace TruthTable.Proofs.Printing

open Tokens ReaderRun Grammar Validation

/-- The name that a node carries itself. -/
def label : Tree → String
  | .leaf name => name
  | .node head _ => head

/-- All names in a tree, of bare words and of compounds. -/
def names (t : Tree) : List String :=
  (nodes t).map label

/-- Every name in the tree can be written as one word. -/
def Spellable (t : Tree) : Prop :=
  ∀ name ∈ names t, isWord name = true

theorem isWord_iff (name : String) :
    isWord name = true ↔ name.toList ≠ [] ∧ name.toList.all isWordChar = true := by
  simp [isWord]

theorem names_node (head : String) (args : List Tree) :
    names (.node head args) = head :: args.flatMap names := by
  rw [names, nodes, nodesEach_eq_flatMap, List.map_cons, List.map_flatMap]
  rfl

theorem spellable_node {head : String} {args : List Tree} :
    Spellable (.node head args) ↔ isWord head = true ∧ ∀ t ∈ args, Spellable t := by
  rw [Spellable, names_node, List.forall_mem_cons]
  refine and_congr_right fun _ => ?_
  simp only [List.mem_flatMap, Spellable]
  exact ⟨fun h t ht name hn => h name ⟨t, ht, hn⟩, fun h name ⟨t, ht, hn⟩ => h t ht name hn⟩

/-- What is printed before a text that ends a word keeps its tokens to itself. -/
def Prints (t : Tree) : Prop :=
  ∀ rest, endsWord rest = true →
    lex (t.render.toList ++ rest) = (lex rest).map (tokens t ++ ·)

theorem prints_leaf {name : String} (h : isWord name = true) : Prints (.leaf name) := by
  intro rest he
  obtain ⟨hne, hw⟩ := (isWord_iff name).mp h
  rw [Tree.render, lex_word hne hw he, String.ofList_toList]
  rfl

theorem endsWord_renderArgs (ts : List Tree) {rest : List Char} (he : endsWord rest = true) :
    endsWord ((Tree.renderArgs ts).toList ++ rest) = true := by
  cases ts with
  | nil => exact he
  | cons t ts =>
    rw [Tree.renderArgs, String.toList_append, String.toList_append]
    rfl

theorem lex_renderArgs {ts : List Tree} (h : ∀ t ∈ ts, Prints t) {rest : List Char}
    (he : endsWord rest = true) :
    lex ((Tree.renderArgs ts).toList ++ rest) = (lex rest).map (tokensEach ts ++ ·) := by
  induction ts with
  | nil => simp [Tree.renderArgs, tokensEach]
  | cons t ts ih =>
    have ht := h t (List.mem_cons_self ..)
    have hts := ih fun u hu => h u (List.mem_cons_of_mem _ hu)
    rw [Tree.renderArgs, String.toList_append, String.toList_append, List.append_assoc,
      List.append_assoc]
    calc lex (" ".toList ++ (t.render.toList ++ ((Tree.renderArgs ts).toList ++ rest)))
      _ = lex (t.render.toList ++ ((Tree.renderArgs ts).toList ++ rest)) := lex_separator rfl _
      _ = (lex ((Tree.renderArgs ts).toList ++ rest)).map (tokens t ++ ·) :=
          ht _ (endsWord_renderArgs ts he)
      _ = (lex rest).map (tokensEach (t :: ts) ++ ·) := by
          rw [hts, Option.map_map, tokensEach]
          simp [Function.comp_def]

theorem prints_node {head : String} {args : List Tree} (hh : isWord head = true)
    (ha : ∀ t ∈ args, Prints t) : Prints (.node head args) := by
  intro rest he
  obtain ⟨hne, hw⟩ := (isWord_iff head).mp hh
  have hclose : endsWord (')' :: rest) = true := rfl
  have htext : (Tree.node head args).render.toList ++ rest =
      '(' :: (head.toList ++ ((Tree.renderArgs args).toList ++ ')' :: rest)) := by
    simp [Tree.render]
  rw [htext, lex_opening, lex_word hne hw (endsWord_renderArgs args hclose),
    lex_renderArgs ha hclose, lex_closing, String.ofList_toList, tokens]
  simp [Option.map_map, Function.comp_def]

theorem prints {t : Tree} (h : Spellable t) : Prints t := by
  induction t using Tree.induction with
  | leaf name => exact prints_leaf (h name (List.mem_singleton_self name))
  | node head args ih =>
    obtain ⟨hh, hargs⟩ := spellable_node.mp h
    exact prints_node hh fun t ht => ih t ht (hargs t ht)

theorem readAll_of_lex {cs : List Char} {t : Tree} (h : lex cs = some (tokens t)) :
    Tree.readAll cs = .ok t := by
  obtain ⟨rest, hrun, hrest⟩ := reads t [] cs [] (by rw [h, List.append_nil])
  exact readAll_eq_ok_iff.mpr ⟨rest, hrun, separators_of_lex hrest⟩

theorem lex_of_readAll {cs : List Char} {t : Tree} (h : Tree.readAll cs = .ok t) :
    lex cs = some (tokens t) := by
  obtain ⟨rest, hrun, hrest⟩ := readAll_eq_ok_iff.mp h
  have hwf : WellFormed .start := trivial
  obtain ⟨ks, hks, ht⟩ := lex_of_run hwf hrun hrest
  rw [← ht]
  exact hks

theorem read_render {t : Tree} (h : Spellable t) : Tree.read t.render = .ok t := by
  have hlex := prints h [] rfl
  rw [List.append_nil, lex, Option.map_some, List.append_nil] at hlex
  exact readAll_of_lex hlex

theorem isWord_of_lex {cs : List Char} {ks : List Token} (h : lex cs = some ks) {name : String}
    (hn : .word name ∈ ks) : isWord name = true := by
  induction ks generalizing cs with
  | nil => cases hn
  | cons k ks ih =>
    obtain ⟨gap, text, rest, -, -, hk, hrest⟩ := exists_of_lex h
    rcases List.mem_cons.mp hn with rfl | hn
    · obtain ⟨rfl, hne, hw, -⟩ := hk
      exact (isWord_iff name).mpr ⟨hne, hw⟩
    · exact ih hrest hn

theorem word_mem_tokensEach {ts : List Tree} {t : Tree} (ht : t ∈ ts) {k : Token}
    (hk : k ∈ tokens t) : k ∈ tokensEach ts := by
  induction ts with
  | nil => cases ht
  | cons u ts ih =>
    rw [tokensEach, List.mem_append]
    rcases List.mem_cons.mp ht with rfl | ht
    · exact Or.inl hk
    · exact Or.inr (ih ht)

theorem word_mem_tokens {t : Tree} {name : String} (h : name ∈ names t) :
    .word name ∈ tokens t := by
  induction t using Tree.induction with
  | leaf own =>
    rw [List.mem_singleton.mp h, label, tokens]
    exact List.mem_singleton_self _
  | node head args ih =>
    rw [names_node, List.mem_cons, List.mem_flatMap] at h
    rw [tokens]
    rcases h with rfl | ⟨t, ht, hn⟩
    · simp
    · have := word_mem_tokensEach ht (ih t ht hn)
      simp [this]

theorem spellable_of_read {text : String} {t : Tree} (h : Tree.read text = .ok t) :
    Spellable t :=
  fun _ hn => isWord_of_lex (lex_of_readAll h) (word_mem_tokens hn)

/-- No node with a word for a name has an invalid symbol. -/
theorem invalidSymbol_not_mem_errors {t : Tree} (h : Spellable t) (name : String) :
    .invalidSymbol name ∉ errors t := by
  intro hmem
  obtain ⟨n, hn, hown⟩ := List.mem_filterMap.mp hmem
  have hw := h (label n) (List.mem_map_of_mem hn)
  cases n with
  | leaf own =>
    have hnone : ownError (.leaf own) = none := if_pos hw
    rw [hnone] at hown
    cases hown
  | node head args =>
    rw [ownError] at hown
    split at hown
    · cases hown
    · split at hown <;> cases hown

/-- **Printing and reading.** A tree is read back from its own text exactly if all
its names are words. So whatever was read is printed and read again unchanged, and
if it is not valid, no symbol is to blame. -/
theorem read_render_iff (t : Tree) :
    (Tree.read t.render = .ok t ↔ ∀ name ∈ names t, isWord name = true) ∧
    ∀ text, Tree.read text = .ok t →
      Tree.read t.render = .ok t ∧
      ∀ es, t.validate = .error es → ∀ name, .invalidSymbol name ∉ es := by
  refine ⟨⟨spellable_of_read, read_render⟩, fun text h => ?_⟩
  have ht := spellable_of_read h
  refine ⟨read_render ht, fun es hes name => ?_⟩
  rw [errors_of_validate hes]
  exact invalidSymbol_not_mem_errors ht name

example : Tree.read (Tree.node "nand" [.leaf "A", .node "or" []]).render =
    .ok (.node "nand" [.leaf "A", .node "or" []]) := rfl

example : Tree.read (Tree.leaf "A B").render = .error (.trailing 2) := rfl

end TruthTable.Proofs.Printing

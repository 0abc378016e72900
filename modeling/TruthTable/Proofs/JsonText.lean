import TruthTable.Json.Layout
import TruthTable.Json.Value

/-!
# JSON texts and what is read from them

The texts of a JSON value are given here by a grammar, apart from the machine that reads
them: blanks may stand around values, keys and marks, a string may spell each of its
characters in several ways, and items and members keep their order. Every text of the
grammar is read as its value. The proof follows the grammar: from any state that takes a
value, reading the text of one leads to the state after it, whatever follows. What follows
matters only to a number or a constant, which would go on with the next character if it
could; in a text of the grammar a blank, a mark or the end comes next.
-/

namespace TruthTable.Proofs.JsonText

open Json

/-- The ways to spell a piece of a string: as it is, by a letter after a backslash, or by
four hexadecimal digits. -/
inductive Spells : Piece → List Char → Prop where
  | plain (c : Char) (hquote : c ≠ '"') (hescape : c ≠ '\\') (hcontrol : ¬ c.toNat < 0x20) :
      Spells (.char c) [c]
  | short (letter c : Char) (h : escaped? letter = some c) : Spells (.char c) ['\\', letter]
  | code (a b c d : Char) (i j k l : Nat) (ha : hexValue? a = some i) (hb : hexValue? b = some j)
      (hc : hexValue? c = some k) (hd : hexValue? d = some l) :
      Spells (.ofCode (((i * 16 + j) * 16 + k) * 16 + l)) ['\\', 'u', a, b, c, d]

/-- The pieces of a string one after the other. -/
inductive StringBody : List Piece → List Char → Prop where
  | nil : StringBody [] []
  | cons {p : Piece} {ps : List Piece} {cs ds : List Char} (hp : Spells p cs)
      (hps : StringBody ps ds) : StringBody (p :: ps) (cs ++ ds)

/-- A string in quotes, with the text that it denotes. -/
def StringText (text : Option String) (cs : List Char) : Prop :=
  ∃ pieces body, StringBody pieces body ∧ cs = '"' :: (body ++ ['"']) ∧
    text = (joinPieces pieces).map String.ofList

/-- A string with blanks around it. -/
def KeyText (key : Option String) (cs : List Char) : Prop :=
  ∃ gap ks gap', cs = gap ++ (ks ++ gap') ∧ gap.all isBlank = true ∧ StringText key ks ∧
    gap'.all isBlank = true

/-- What a part of a text may stand for: a value, a value with blanks around it, one or more
items, one or more members. -/
inductive Phrase where
  | value (j : Json)
  | element (j : Json)
  | items (js : List Json)
  | members (ms : List (Option String × Json))

inductive Written : Phrase → List Char → Prop where
  | null : Written (.value .null) ['n', 'u', 'l', 'l']
  | yes : Written (.value (.bool true)) ['t', 'r', 'u', 'e']
  | no : Written (.value (.bool false)) ['f', 'a', 'l', 's', 'e']
  | number {literal : List Char} (h : isNumber literal = true) :
      Written (.value (.number (String.ofList literal))) literal
  | string {text : Option String} {cs : List Char} (h : StringText text cs) :
      Written (.value (.string text)) cs
  | noItems {gap : List Char} (hgap : gap.all isBlank = true) :
      Written (.value (.array [])) ('[' :: (gap ++ [']']))
  | array {js : List Json} {cs : List Char} (h : Written (.items js) cs) :
      Written (.value (.array js)) ('[' :: (cs ++ [']']))
  | noMembers {gap : List Char} (hgap : gap.all isBlank = true) :
      Written (.value (.object [])) ('{' :: (gap ++ ['}']))
  | object {ms : List (Option String × Json)} {cs : List Char} (h : Written (.members ms) cs) :
      Written (.value (.object ms)) ('{' :: (cs ++ ['}']))
  | element {j : Json} {gap cs gap' : List Char} (hgap : gap.all isBlank = true)
      (hj : Written (.value j) cs) (hgap' : gap'.all isBlank = true) :
      Written (.element j) (gap ++ (cs ++ gap'))
  | lastItem {j : Json} {cs : List Char} (hj : Written (.element j) cs) : Written (.items [j]) cs
  | item {j : Json} {js : List Json} {cs ds : List Char} (hj : Written (.element j) cs)
      (hjs : Written (.items js) ds) : Written (.items (j :: js)) (cs ++ ',' :: ds)
  | lastMember {k : Option String} {j : Json} {ks cs : List Char} (hk : KeyText k ks)
      (hj : Written (.element j) cs) : Written (.members [(k, j)]) (ks ++ ':' :: cs)
  | member {k : Option String} {j : Json} {ms : List (Option String × Json)}
      {ks cs ds : List Char} (hk : KeyText k ks) (hj : Written (.element j) cs)
      (hms : Written (.members ms) ds) :
      Written (.members ((k, j) :: ms)) (ks ++ ':' :: (cs ++ ',' :: ds))

/-- The text spells the value, with blanks around it. -/
def IsText (j : Json) (text : String) : Prop :=
  Written (.element j) text.toList

/-- The tokens from a character on that belongs to no number or constant. -/
def tokensAt (c : Char) (cs : List Char) : Option (List Token) :=
  if isBlank c then tokensFrom (.bare []) cs
  else if c == '"' then tokensFrom (.string []) cs
  else (punctuation? c).bind fun mark => (tokensFrom (.bare []) cs).map (mark :: ·)

/-- Such a character ends the word before it. -/
theorem tokensFrom_stop {c : Char} (hc : isBareChar c = false) (word cs : List Char) :
    tokensFrom (.bare word) (c :: cs) =
      (flush word).bind fun before => (tokensAt c cs).map (before ++ ·) := by
  rw [tokensFrom, if_neg (by simp [hc]), tokensAt]
  cases flush word with
  | none => rfl
  | some before =>
    cases isBlank c with
    | true => cases tokensFrom (.bare []) cs <;> rfl
    | false =>
      cases c == '"' with
      | true => cases tokensFrom (.string []) cs <;> rfl
      | false =>
        cases punctuation? c with
        | none => rfl
        | some mark => cases tokensFrom (.bare []) cs <;> rfl

theorem tokensFrom_between {c : Char} (hc : isBareChar c = false) (cs : List Char) :
    tokensFrom (.bare []) (c :: cs) = tokensAt c cs := by
  rw [tokensFrom_stop hc]
  exact Option.map_id'

theorem not_bareChar_of_blank {c : Char} (h : isBlank c = true) : isBareChar c = false := by
  simp only [isBlank, Bool.or_eq_true, beq_iff_eq] at h
  rcases h with ((rfl | rfl) | rfl) | rfl <;> decide

theorem tokensFrom_gap {gap : List Char} (h : gap.all isBlank = true) (cs : List Char) :
    tokensFrom (.bare []) (gap ++ cs) = tokensFrom (.bare []) cs := by
  induction gap with
  | nil => rfl
  | cons c gap ih =>
    rw [List.all_cons, Bool.and_eq_true] at h
    rw [List.cons_append, tokensFrom_between (not_bareChar_of_blank h.1), tokensAt, if_pos h.1,
      ih h.2]

theorem tokensFrom_mark {c : Char} {k : Token} (h : punctuation? c = some k) (cs : List Char) :
    tokensFrom (.bare []) (c :: cs) = (tokensFrom (.bare []) cs).map (k :: ·) := by
  have hc : isBareChar c = false ∧ isBlank c = false ∧ (c == '"') = false := by
    unfold punctuation? at h
    split at h <;> first | decide | cases h
  rw [tokensFrom_between hc.1, tokensAt, h, hc.2.1, hc.2.2]
  rfl

/-- One piece more of a string. -/
theorem tokensFrom_piece {p : Piece} {cs : List Char} (h : Spells p cs) (before : List Piece)
    (rest : List Char) :
    tokensFrom (.string before) (cs ++ rest) = tokensFrom (.string (p :: before)) rest := by
  cases h with
  | plain c hquote hescape hcontrol => simp [tokensFrom, hquote, hescape, hcontrol]
  | short letter c h =>
    have hu : letter ≠ 'u' := by
      rintro rfl
      cases h
    simp [tokensFrom, hu, h]
  | code a b c d i j k l ha hb hc hd => simp [tokensFrom, ha, hb, hc, hd]

theorem tokensFrom_body {ps : List Piece} {cs : List Char} (h : StringBody ps cs)
    (before : List Piece) (rest : List Char) :
    tokensFrom (.string before) (cs ++ '"' :: rest) =
      (tokensFrom (.bare []) rest).map (stringToken (ps.reverse ++ before) :: ·) := by
  induction h generalizing before with
  | nil => rfl
  | cons hp _ ih =>
    rw [List.append_assoc, tokensFrom_piece hp, ih, List.reverse_cons, List.append_assoc]
    rfl

theorem tokensFrom_string {text : Option String} {cs : List Char} (h : StringText text cs)
    (rest : List Char) :
    tokensFrom (.bare []) (cs ++ rest) =
      (tokensFrom (.bare []) rest).map (.string text :: ·) := by
  obtain ⟨ps, body, hbody, rfl, rfl⟩ := h
  have htoken : stringToken (ps.reverse ++ []) = .string ((joinPieces ps).map String.ofList) := by
    rw [stringToken, List.append_nil, List.reverse_reverse]
  have hopen : tokensFrom (.bare []) ('"' :: (body ++ '"' :: rest)) =
      tokensFrom (.string []) (body ++ '"' :: rest) := by
    rw [tokensFrom_between (by decide)]
    rfl
  rw [List.cons_append, List.append_assoc, List.singleton_append, hopen, tokensFrom_body hbody,
    htoken]

/-- What may follow a number or a constant: nothing, or a character that neither goes on
with. -/
def endsBare : List Char → Bool
  | [] => true
  | c :: _ => !isBareChar c

theorem endsBare_gap {gap cs : List Char} (h : gap.all isBlank = true)
    (he : endsBare cs = true) : endsBare (gap ++ cs) = true := by
  cases gap with
  | nil => exact he
  | cons c gap =>
    rw [List.all_cons, Bool.and_eq_true] at h
    simp [endsBare, not_bareChar_of_blank h.1]

theorem tokensFrom_run {word : List Char} (h : word.all isBareChar = true) (before cs : List Char) :
    tokensFrom (.bare before) (word ++ cs) = tokensFrom (.bare (word.reverse ++ before)) cs := by
  induction word generalizing before with
  | nil => rfl
  | cons c word ih =>
    rw [List.all_cons, Bool.and_eq_true] at h
    rw [List.cons_append, tokensFrom, if_pos h.1, ih h.2, List.reverse_cons, List.append_assoc]
    rfl

theorem tokensFrom_flush {word : List Char} {k : Token} (hk : flush word = some [k])
    {cs : List Char} (he : endsBare cs = true) :
    tokensFrom (.bare word) cs = (tokensFrom (.bare []) cs).map (k :: ·) := by
  cases cs with
  | nil => exact hk
  | cons c cs =>
    have hc : isBareChar c = false := by simpa [endsBare] using he
    rw [tokensFrom_stop hc, tokensFrom_between hc, hk]
    rfl

theorem tokensFrom_bare {word : List Char} {k : Token} (hall : word.all isBareChar = true)
    (hne : word ≠ []) (hk : bare? word = some k) {cs : List Char} (he : endsBare cs = true) :
    tokensFrom (.bare []) (word ++ cs) = (tokensFrom (.bare []) cs).map (k :: ·) := by
  have hflush : flush word.reverse = some [k] := by
    unfold flush
    split
    · rename_i hnil
      exact absurd (List.reverse_eq_nil_iff.mp hnil) hne
    · rw [List.reverse_reverse, hk]
      rfl
  rw [tokensFrom_run hall, List.append_nil, tokensFrom_flush hflush he]

theorem bareChars_of_digits {cs : List Char} (h : cs.all Char.isDigit = true) :
    cs.all isBareChar = true := by
  rw [List.all_eq_true] at h ⊢
  intro c hc
  simp [isBareChar, Char.isAlphanum, h c hc]

theorem bareChars_of_isDigits {cs : List Char} (h : isDigits cs = true) :
    cs.all isBareChar = true := by
  rw [isDigits, Bool.and_eq_true] at h
  exact bareChars_of_digits h.2

theorem bareChars_of_isExponent {cs : List Char} (h : isExponent cs = true) :
    cs.all isBareChar = true := by
  cases cs with
  | nil => rfl
  | cons mark cs =>
    unfold isExponent at h
    rw [Bool.and_eq_true, Bool.or_eq_true, beq_iff_eq, beq_iff_eq] at h
    obtain ⟨hmark, hdigits⟩ := h
    have hbare : isBareChar mark = true := by rcases hmark with rfl | rfl <;> decide
    have hrest : cs.all isBareChar = true := by
      split at hdigits
      · rw [List.all_cons, bareChars_of_isDigits hdigits]
        rfl
      · rw [List.all_cons, bareChars_of_isDigits hdigits]
        rfl
      · exact bareChars_of_isDigits hdigits
    rw [List.all_cons, hbare, hrest]
    rfl

/-- Digits and then what is bare are bare. -/
theorem bareChars_of_dropDigits {cs : List Char}
    (h : (cs.dropWhile Char.isDigit).all isBareChar = true) : cs.all isBareChar = true := by
  have hdigits : (cs.takeWhile Char.isDigit).all isBareChar = true :=
    bareChars_of_digits List.all_takeWhile
  rw [← List.takeWhile_append_dropWhile (p := Char.isDigit) (l := cs), List.all_append, hdigits, h]
  rfl

theorem bareChars_of_isFraction {cs : List Char} (h : isFraction cs = true) :
    cs.all isBareChar = true := by
  unfold isFraction at h
  split at h
  · rw [Bool.and_eq_true] at h
    rw [List.all_cons, bareChars_of_dropDigits (bareChars_of_isExponent h.2)]
    rfl
  · exact bareChars_of_isExponent h

theorem bareChars_of_isUnsigned {cs : List Char} (h : isUnsigned cs = true) :
    cs.all isBareChar = true ∧ cs ≠ [] := by
  unfold isUnsigned at h
  split at h
  · rw [List.all_cons, bareChars_of_isFraction h]
    exact ⟨rfl, List.cons_ne_nil _ _⟩
  · rw [Bool.and_eq_true] at h
    refine ⟨bareChars_of_dropDigits (bareChars_of_isFraction h.2), ?_⟩
    rintro rfl
    cases h.1

theorem bareChars_of_isNumber {cs : List Char} (h : isNumber cs = true) :
    cs.all isBareChar = true ∧ cs ≠ [] := by
  unfold isNumber at h
  split at h
  · rw [List.all_cons, (bareChars_of_isUnsigned h).1]
    exact ⟨rfl, List.cons_ne_nil _ _⟩
  · exact bareChars_of_isUnsigned h

theorem bare?_of_isNumber {cs : List Char} (h : isNumber cs = true) :
    bare? cs = some (.number (String.ofList cs)) := by
  have hne : ∀ word : List Char, isNumber word = false → cs ≠ word := by
    rintro word hword rfl
    rw [h] at hword
    cases hword
  rw [bare?, if_neg (hne _ (by decide)), if_neg (hne _ (by decide)), if_neg (hne _ (by decide)),
    if_pos h]

/-- What is read from a state on. -/
def readFrom (st : Json.State) (cs : List Char) : Option Json :=
  (tokensFrom (.bare []) cs).bind fun ts => (ts.foldlM step st).bind finish

theorem readFrom_token {cs rest : List Char} {k : Token}
    (h : tokensFrom (.bare []) cs = (tokensFrom (.bare []) rest).map (k :: ·)) (st : Json.State) :
    readFrom st cs = (step st k).bind fun next => readFrom next rest := by
  unfold readFrom
  rw [h]
  cases tokensFrom (.bare []) rest with
  | none => cases step st k <;> rfl
  | some ts => cases hs : step st k <;> simp [List.foldlM_cons, hs]

theorem readFrom_gap (st : Json.State) {gap : List Char} (h : gap.all isBlank = true)
    (cs : List Char) : readFrom st (gap ++ cs) = readFrom st cs := by
  rw [readFrom, tokensFrom_gap h, readFrom]

/-- The state takes a value, which then stands inside the given containers. -/
def TakesValue (st : Json.State) (outer : List Json.Frame) : Prop :=
  ∀ k, k ≠ .closeBracket → step st k = beginValue outer k

theorem takesValue_value (outer : List Json.Frame) : TakesValue (.value outer) outer :=
  fun _ _ => rfl

theorem takesValue_firstItem (outer : List Json.Frame) :
    TakesValue (.firstItem outer) (.array [] :: outer) := by
  intro k hk
  cases k with
  | closeBracket => exact absurd rfl hk
  | _ => rfl

/-- The state takes the key of a member that comes after others. -/
def TakesKey (st : Json.State) (done : List (Option String × Json)) (outer : List Json.Frame) :
    Prop :=
  ∀ k, step st (.string k) = some (.colon done k outer)

/-- From every state that takes it, the text of a phrase leads to the state after the value
or, with its closing mark, after the container. -/
def Reads : Phrase → List Char → Prop
  | .value j, cs => ∀ st outer, TakesValue st outer → ∀ rest, endsBare rest = true →
      readFrom st (cs ++ rest) = readFrom (.after j outer) rest
  | .element j, cs => ∀ st outer, TakesValue st outer → ∀ rest, endsBare rest = true →
      readFrom st (cs ++ rest) = readFrom (.after j outer) rest
  | .items js, cs => ∀ st done outer, TakesValue st (.array done :: outer) → ∀ rest,
      readFrom st (cs ++ ']' :: rest) = readFrom (.after (.array (done.reverse ++ js)) outer) rest
  | .members ms, cs => ∀ st done outer, TakesKey st done outer → ∀ rest,
      readFrom st (cs ++ '}' :: rest) = readFrom (.after (.object (done.reverse ++ ms)) outer) rest

theorem reads_bare {j : Json} {word : List Char} {k : Token} (hall : word.all isBareChar = true)
    (hne : word ≠ []) (hk : bare? word = some k) (hclose : k ≠ .closeBracket)
    (hj : ∀ outer, beginValue outer k = some (.after j outer)) : Reads (.value j) word := by
  intro st outer hst rest hrest
  rw [readFrom_token (tokensFrom_bare hall hne hk hrest), hst k hclose, hj]
  rfl

theorem readFrom_mark {c : Char} {k : Token} (hc : punctuation? c = some k) {st next : Json.State}
    (hs : step st k = some next) (rest : List Char) :
    readFrom st (c :: rest) = readFrom next rest := by
  rw [readFrom_token (tokensFrom_mark hc rest), hs]
  rfl

theorem readFrom_key {key : Option String} {ks : List Char} (h : KeyText key ks)
    {st : Json.State} {done : List (Option String × Json)} {outer : List Json.Frame}
    (hst : TakesKey st done outer) (rest : List Char) :
    readFrom st (ks ++ ':' :: rest) = readFrom (.value (.object done key :: outer)) rest := by
  obtain ⟨gap, text, gap', rfl, hgap, htext, hgap'⟩ := h
  rw [List.append_assoc, List.append_assoc, readFrom_gap _ hgap,
    readFrom_token (tokensFrom_string htext _), hst, Option.bind_some, readFrom_gap _ hgap',
    readFrom_mark rfl rfl]

/-- **What is written is read.** -/
theorem reads_of_written {phrase : Phrase} {cs : List Char} (h : Written phrase cs) :
    Reads phrase cs := by
  induction h with
  | null => exact reads_bare (by decide) (by decide) rfl (by decide) fun _ => rfl
  | yes => exact reads_bare (by decide) (by decide) rfl (by decide) fun _ => rfl
  | no => exact reads_bare (by decide) (by decide) rfl (by decide) fun _ => rfl
  | number h =>
    obtain ⟨hall, hne⟩ := bareChars_of_isNumber h
    exact reads_bare hall hne (bare?_of_isNumber h) (by rintro ⟨⟩) fun _ => rfl
  | string h =>
    intro st outer hst rest _
    rw [readFrom_token (tokensFrom_string h rest), hst _ (by rintro ⟨⟩)]
    rfl
  | noItems hgap =>
    intro st outer hst rest _
    rw [List.cons_append, List.append_assoc, readFrom_mark rfl (hst _ (by rintro ⟨⟩)),
      readFrom_gap _ hgap]
    exact readFrom_mark rfl rfl rest
  | array _ ih =>
    intro st outer hst rest _
    rw [List.cons_append, List.append_assoc, readFrom_mark rfl (hst _ (by rintro ⟨⟩))]
    exact ih _ [] outer (takesValue_firstItem outer) rest
  | noMembers hgap =>
    intro st outer hst rest _
    rw [List.cons_append, List.append_assoc, readFrom_mark rfl (hst _ (by rintro ⟨⟩)),
      readFrom_gap _ hgap]
    exact readFrom_mark rfl rfl rest
  | object _ ih =>
    intro st outer hst rest _
    rw [List.cons_append, List.append_assoc, readFrom_mark rfl (hst _ (by rintro ⟨⟩))]
    exact ih _ [] outer (fun _ => rfl) rest
  | element hgap _ hgap' ih =>
    intro st outer hst rest hrest
    rw [List.append_assoc, List.append_assoc, readFrom_gap _ hgap,
      ih st outer hst _ (endsBare_gap hgap' hrest), readFrom_gap _ hgap']
  | lastItem _ ih =>
    intro st done outer hst rest
    rw [ih st _ hst _ rfl, readFrom_mark rfl rfl, List.reverse_cons]
  | item _ _ ihj ihjs =>
    intro st done outer hst rest
    rw [List.append_assoc, List.cons_append, ihj st _ hst _ rfl, readFrom_mark rfl rfl,
      ihjs _ _ outer (takesValue_value _) rest, List.reverse_cons, List.append_assoc]
    rfl
  | lastMember hk _ ih =>
    intro st done outer hst rest
    rw [List.append_assoc, List.cons_append, readFrom_key hk hst,
      ih _ _ (takesValue_value _) _ rfl, readFrom_mark rfl rfl, List.reverse_cons]
  | member hk _ _ ihj ihms =>
    intro st done outer hst rest
    rw [List.append_assoc, List.cons_append, List.append_assoc, List.cons_append,
      readFrom_key hk hst, ihj _ _ (takesValue_value _) _ rfl, readFrom_mark rfl rfl,
      ihms _ _ outer (fun _ => rfl) rest, List.reverse_cons, List.append_assoc]
    rfl

/-- **Every JSON text is read as the value that it spells.** -/
theorem read?_of_isText {j : Json} {text : String} (h : IsText j text) :
    Json.read? text = some j := by
  have hread := reads_of_written h (.value []) [] (takesValue_value []) [] rfl
  rw [List.append_nil] at hread
  exact hread

theorem hexValue?_hexDigit : ∀ n < 16, hexValue? (hexDigit n) = some n := by
  decide

/-- Every character is written as it may be spelled. -/
theorem spells_escape (c : Char) : Spells (.char c) (escape c) := by
  unfold escape
  split
  · exact .short '"' '"' rfl
  · exact .short '\\' '\\' rfl
  · exact .short 'b' '\x08' rfl
  · exact .short 'f' '\x0c' rfl
  · exact .short 'n' '\n' rfl
  · exact .short 'r' '\r' rfl
  · exact .short 't' '\t' rfl
  · rename_i hquote hescape _ _ _ _ _
    split
    · rename_i hcontrol
      have hcode : ((0 * 16 + 0) * 16 + c.toNat / 16) * 16 + c.toNat % 16 = c.toNat := by omega
      have hpiece : Piece.ofCode (((0 * 16 + 0) * 16 + c.toNat / 16) * 16 + c.toNat % 16) =
          .char c := by
        rw [hcode, Piece.ofCode, if_neg (by omega), if_neg (by omega), Char.ofNat_toNat]
      rw [← hpiece]
      exact .code '0' '0' _ _ 0 0 _ _ rfl rfl (hexValue?_hexDigit _ (by omega))
        (hexValue?_hexDigit _ (by omega))
    · rename_i hcontrol
      exact .plain c hquote hescape hcontrol

theorem stringBody_escape (cs : List Char) :
    StringBody (cs.map .char) (cs.flatMap escape) := by
  induction cs with
  | nil => exact .nil
  | cons c cs ih => exact .cons (spells_escape c) ih

theorem joinPieces_chars (cs : List Char) : joinPieces (cs.map .char) = some cs := by
  induction cs with
  | nil => rfl
  | cons c cs ih => rw [List.map_cons, joinPieces, ih]; rfl

theorem stringText_quoted (text : String) : StringText (some text) (quoted text).toList := by
  refine ⟨text.toList.map .char, text.toList.flatMap escape, stringBody_escape _, ?_, ?_⟩
  · simp [quoted]
  · rw [joinPieces_chars, Option.map_some, String.ofList_toList]

section CompactObject

variable {α : Type} (key value : α → String) (j : α → Json)

/-- A member without blanks. -/
def memberText (a : α) : List Char :=
  (quoted (key a)).toList ++ ':' :: (value a).toList

theorem keyText_quoted (a : α) : KeyText (some (key a)) (quoted (key a)).toList :=
  ⟨[], _, [], by rw [List.nil_append, List.append_nil], rfl, stringText_quoted (key a), rfl⟩

theorem element_of_value {j : Json} {cs : List Char} (h : Written (.value j) cs) :
    Written (.element j) cs := by
  have helement : Written (.element j) ([] ++ (cs ++ [])) := .element rfl h rfl
  rw [List.nil_append, List.append_nil] at helement
  exact helement

theorem written_members (a : α) (l : List α)
    (h : ∀ b ∈ a :: l, Written (.value (j b)) (value b).toList) :
    Written (.members ((a :: l).map fun b => (some (key b), j b)))
      ([','].intercalate ((a :: l).map (memberText key value))) := by
  have ha := element_of_value (h a (by simp))
  induction l generalizing a with
  | nil =>
    rw [List.map_singleton, List.map_singleton, List.intercalate_singleton]
    exact .lastMember (keyText_quoted key a) ha
  | cons b l ih =>
    have hrest := ih b (fun c hc => h c (List.mem_cons_of_mem a hc))
      (element_of_value (h b (by simp)))
    have hmember := Written.member (keyText_quoted key a) ha hrest
    have htext : [','].intercalate ((a :: b :: l).map (memberText key value)) =
        (quoted (key a)).toList ++ ':' :: ((value a).toList ++
          ',' :: [','].intercalate ((b :: l).map (memberText key value))) := by
      simp [List.intercalate_cons_cons, memberText]
    rw [htext]
    exact hmember

/-- An object on one line is a text of the object with these members. -/
theorem isText_compactObject (l : List α)
    (h : ∀ a ∈ l, Written (.value (j a)) (value a).toList) :
    IsText (.object (l.map fun a => (some (key a), j a)))
      (compactObject (l.map fun a => (key a, value a))) := by
  have htext : (compactObject (l.map fun a => (key a, value a))).toList =
      '{' :: ([','].intercalate (l.map (memberText key value)) ++ ['}']) := by
    have hmember : memberText key value =
        fun a => (quoted (key a)).toList ++ ':' :: (value a).toList := rfl
    simp [compactObject, Function.comp_def, hmember]
  rw [IsText, htext]
  apply element_of_value
  cases l with
  | nil => exact .noMembers rfl
  | cons a l => exact .object (written_members key value j a l h)

end CompactObject

end TruthTable.Proofs.JsonText

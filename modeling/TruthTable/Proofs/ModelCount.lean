import TruthTable.Proofs.Answers
import TruthTable.Proofs.Forcing

/-!
# The announced number of models

A plan announces how many models a full enumeration visits: two to the number of free
symbols, or the largest 128-bit word where that does not fit. The number of free symbols is
first cut to 32 bits, so what is announced is a power for the remainder of this number. It
is never too large. It is too small exactly if the cut drops something and leaves fewer
than 128: four billion symbols may be announced as one model. Below that, forcing literals
never raises the announced number; from there on it may.
-/

namespace TruthTable.Proofs.ModelCount

open Evaluation Forcing Search Answers

/-- A number as 128 bits show it: the largest word stands for all that do not fit. -/
def saturated (n : Nat) : Nat :=
  min n (2 ^ 128 - 1)

theorem saturated_mono {m n : Nat} (h : m ≤ n) : saturated m ≤ saturated n := by
  unfold saturated
  omega

theorem saturated_pow_of_lt {k : Nat} (h : k < 128) : saturated (2 ^ k) = 2 ^ k := by
  have hpow : 2 ^ k ≤ 2 ^ 127 := Nat.pow_le_pow_right (by decide) (Nat.le_of_lt_succ h)
  unfold saturated
  omega

theorem saturated_pow_of_le {k : Nat} (h : 128 ≤ k) : saturated (2 ^ k) = 2 ^ 128 - 1 := by
  have hpow : 2 ^ 128 ≤ 2 ^ k := Nat.pow_le_pow_right (by decide) h
  unfold saturated
  omega

theorem saturated_pow_lt {k : Nat} (h : k < 128) : saturated (2 ^ k) < 2 ^ 128 - 1 := by
  have hpow : 2 ^ k ≤ 2 ^ 127 := Nat.pow_le_pow_right (by decide) (Nat.le_of_lt_succ h)
  rw [saturated_pow_of_lt h]
  omega

/-- The power that is announced has the number of free symbols modulo `2 ^ 32` as its
exponent. -/
theorem modelCount_eq (p : Plan) : p.modelCount = saturated (2 ^ (p.free.length % 2 ^ 32)) := by
  have hshift : p.free.length.toUInt32.toNat = p.free.length % 2 ^ 32 := UInt32.toNat_ofNat'
  have hlt : p.free.length.toUInt32 < 128 ↔ p.free.length % 2 ^ 32 < 128 := by
    rw [UInt32.lt_iff_toNat_lt, hshift]
    rfl
  unfold Plan.modelCount
  by_cases h : p.free.length % 2 ^ 32 < 128
  · rw [if_pos (hlt.mpr h), hshift, Nat.one_shiftLeft, saturated_pow_of_lt h]
  · rw [if_neg (mt hlt.mp h), saturated_pow_of_le (Nat.le_of_not_lt h)]
    rfl

/-- The 32-bit word keeps the number of free symbols, or is large enough to saturate all the
same. -/
def CutHarmless (p : Plan) : Prop :=
  p.free.length < 2 ^ 32 ∨ 128 ≤ p.free.length % 2 ^ 32

theorem modelCount_of_harmless {p : Plan} (h : CutHarmless p) :
    p.modelCount = saturated (2 ^ p.free.length) := by
  rw [modelCount_eq]
  rcases h with hsmall | hlarge
  · rw [Nat.mod_eq_of_lt hsmall]
  · have hle : p.free.length % 2 ^ 32 ≤ p.free.length := Nat.mod_le _ _
    rw [saturated_pow_of_le hlarge, saturated_pow_of_le (Nat.le_trans hlarge hle)]

theorem modelCount_lt_of_harmful {p : Plan} (h : ¬ CutHarmless p) :
    p.modelCount < saturated (2 ^ p.free.length) := by
  obtain ⟨hmany, hrest⟩ := not_or.mp h
  rw [modelCount_eq, saturated_pow_of_le (k := p.free.length) (by omega)]
  exact saturated_pow_lt (Nat.lt_of_not_le hrest)

theorem modelCount_eq_iff (p : Plan) :
    p.modelCount = saturated (2 ^ p.free.length) ↔ CutHarmless p := by
  constructor
  · intro heq
    by_contra hharm
    exact absurd heq (Nat.ne_of_lt (modelCount_lt_of_harmful hharm))
  · exact modelCount_of_harmless

theorem modelCount_le (p : Plan) : p.modelCount ≤ saturated (2 ^ p.free.length) := by
  rw [modelCount_eq]
  exact saturated_mono (Nat.pow_le_pow_right (by decide) (Nat.mod_le _ _))

/-- More free symbols are announced as no fewer models, if the cut does no harm to the longer
list. -/
theorem modelCount_le_modelCount {p q : Plan} (hlen : p.free.length ≤ q.free.length)
    (hq : CutHarmless q) : p.modelCount ≤ q.modelCount :=
  calc p.modelCount
    _ ≤ saturated (2 ^ p.free.length) := modelCount_le p
    _ ≤ saturated (2 ^ q.free.length) := saturated_mono (Nat.pow_le_pow_right (by decide) hlen)
    _ = q.modelCount := (modelCount_of_harmless hq).symm

theorem length_free_le (kb statement : Formula) (c : Settings) {d : Settings}
    (h : d.literalForcing = false) :
    (Plan.make kb statement c).free.length ≤ (Plan.make kb statement d).free.length := by
  rw [(free_of_not_forcing kb statement h).1, free_make]
  exact List.length_filter_le _ _

/-- A search that may not stop visits every leaf. -/
theorem check_exhaustive {kb target : Formula} {remaining : List Symbol} {m : Model}
    (hk : Covers kb remaining m) (ht : Covers target remaining m) (visited : Nat) :
    Checker.check ⟨kb, target, false⟩ remaining m visited =
      ⟨.ok ((answers kb target remaining m).all id), visited + 2 ^ remaining.length⟩ := by
  rw [check_of_covers (c := ⟨kb, target, false⟩) hk ht, ← length_answers kb target remaining m]
  rfl

/-- **The announced number and the real one.** Whatever the plan, a search over its free
symbols that may not stop visits two to their number of leaves, once plan and search are
about the same symbols. What is announced is never more than 128 bits show of this, and it
is exactly that if and only if there are fewer than `2 ^ 32` free symbols or their number
modulo `2 ^ 32` is at least 128. While this holds of a plan made without forcing, no other
settings for the same formulas announce more. -/
theorem modelCount_announces (p : Plan) :
    (∀ (kb target : Formula) (visited : Nat),
      (∀ s ∈ kb.symbols, s ∈ p.free ∨ p.forced.contains s = true) →
      (∀ s ∈ target.symbols, s ∈ p.free ∨ p.forced.contains s = true) →
        ∃ answer, Checker.check ⟨kb, target, false⟩ p.free p.forced visited =
          ⟨.ok answer, visited + 2 ^ p.free.length⟩) ∧
    p.modelCount = min (2 ^ (p.free.length % 2 ^ 32)) (2 ^ 128 - 1) ∧
    p.modelCount ≤ min (2 ^ p.free.length) (2 ^ 128 - 1) ∧
    (p.modelCount = min (2 ^ p.free.length) (2 ^ 128 - 1) ↔
      p.free.length < 2 ^ 32 ∨ 128 ≤ p.free.length % 2 ^ 32) ∧
    ∀ (kb statement : Formula) (c d : Settings), p = Plan.make kb statement d →
      d.literalForcing = false →
      p.free.length < 2 ^ 32 ∨ 128 ≤ p.free.length % 2 ^ 32 →
        (Plan.make kb statement c).modelCount ≤ p.modelCount := by
  refine ⟨?_, modelCount_eq p, modelCount_le p, modelCount_eq_iff p, ?_⟩
  · intro kb target visited hk ht
    exact ⟨_, check_exhaustive (covers_of_symbols hk) (covers_of_symbols ht) visited⟩
  · rintro kb statement c d rfl hd hharmless
    exact modelCount_le_modelCount (length_free_le kb statement c hd) hharmless

theorem isWord_numbered (i : Nat) : isWord ("S" ++ Nat.repr i) = true := by
  have hdigits : ∀ c ∈ Nat.toDigits 10 i, isWordChar c = true := by
    intro c hc
    have hdigit := Nat.isDigit_of_mem_toDigits (by decide) (by decide) hc
    simp [isWordChar, Char.isAlphanum, hdigit]
  have hletter : isWordChar 'S' = true := by decide
  simpa [isWord, Nat.toList_repr] using ⟨hletter, hdigits⟩

/-- `S0`, `S1`, `S2` and so on. -/
def numbered (i : Nat) : Symbol :=
  ⟨"S" ++ Nat.repr i, isWord_numbered i⟩

theorem numbered_injective : Function.Injective numbered := by
  intro i j h
  have hname : "S" ++ Nat.repr i = "S" ++ Nat.repr j := congrArg Symbol.name h
  have hdigits := congrArg String.toList ((String.append_right_inj "S").mp hname)
  have hvalue := congrArg (fun digits => Nat.ofDigitChars 10 digits 0) hdigits
  simpa [Nat.toList_repr] using hvalue

theorem nodup_numbered (start count : Nat) :
    ((List.range' start count).map numbered).Nodup :=
  List.Pairwise.map numbered (fun _ _ hne h => hne (numbered_injective h)) List.nodup_range'

/-- `(and S0 (or S1 S2 ...))`, with `n` symbols after `S1`. -/
def factAndClause (n : Nat) : Formula :=
  .variadic .and (.atom (numbered 0))
    [.variadic .or (.atom (numbered 1)) (((List.range' 2 n).map numbered).map .atom)]

theorem atomsEach_map_atom (symbols : List Symbol) :
    atomsEach (symbols.map .atom) = symbols := by
  induction symbols with
  | nil => rfl
  | cons s symbols ih => rw [List.map_cons, atomsEach, atoms, ih, List.singleton_append]

theorem atoms_factAndClause (n : Nat) :
    atoms (factAndClause n) = (List.range' 0 (n + 2)).map numbered := by
  rw [List.range'_succ, List.range'_succ, List.map_cons, List.map_cons]
  simp only [factAndClause, atoms, atomsEach, atomsEach_map_atom, List.append_nil,
    List.singleton_append]

theorem contains_forced_factAndClause (n : Nat) (s : Symbol) :
    (factAndClause n).forced.contains s = true ↔ s = numbered 0 := by
  have hforced : (factAndClause n).forced = Model.empty.insert (numbered 0) true := rfl
  rw [hforced, Model.contains, Model.value?_insert]
  by_cases hs : s = numbered 0 <;> simp [hs]

theorem length_free_of_mem {kb statement : Formula} {settings : Settings} {l : List Symbol}
    (hl : l.Nodup) (h : ∀ s, s ∈ (Plan.make kb statement settings).free ↔ s ∈ l) :
    (Plan.make kb statement settings).free.length = l.length := by
  have hnodup : (Plan.make kb statement settings).free.Nodup :=
    (nodup_allSymbols kb statement).filter _
  exact ((List.perm_ext_iff_of_nodup hnodup hl).mpr h).length_eq

theorem mem_occurrences {n : Nat} {s : Symbol} :
    s ∈ atoms (factAndClause n) ∨ s ∈ atoms (.atom (numbered 0)) ↔
      ∃ i < n + 2, numbered i = s := by
  rw [atoms_factAndClause, atoms, List.mem_singleton]
  constructor
  · rintro (h | rfl)
    · simpa [List.mem_range'_1] using h
    · exact ⟨0, by omega, rfl⟩
  · intro h
    exact Or.inl (by simpa [List.mem_range'_1] using h)

/-- Without forcing every symbol is free. -/
theorem length_free_all (n : Nat) {settings : Settings} (h : settings.literalForcing = false) :
    (Plan.make (factAndClause n) (.atom (numbered 0)) settings).free.length = n + 2 := by
  rw [length_free_of_mem (nodup_numbered 0 (n + 2)), List.length_map, List.length_range']
  intro s
  rw [mem_free, mem_occurrences, (free_of_not_forcing _ _ h).2]
  simp [List.mem_range'_1, Model.contains]

/-- With forcing every symbol but `S0` is free. -/
theorem length_free_forcing (n : Nat) {settings : Settings}
    (h : settings.literalForcing = true) :
    (Plan.make (factAndClause n) (.atom (numbered 0)) settings).free.length = n + 1 := by
  rw [length_free_of_mem (nodup_numbered 1 (n + 1)), List.length_map, List.length_range']
  intro s
  have hforced : (Plan.make (factAndClause n) (.atom (numbered 0)) settings).forced =
      (factAndClause n).forced := by simp [Plan.make, h]
  rw [mem_free, mem_occurrences, hforced, contains_forced_factAndClause, List.mem_map]
  constructor
  · rintro ⟨⟨i, hi, rfl⟩, hne⟩
    have hpos : i ≠ 0 := fun h0 => hne (congrArg numbered h0)
    exact ⟨i, List.mem_range'_1.mpr (by omega), rfl⟩
  · rintro ⟨i, hi, rfl⟩
    obtain ⟨hpos, hlt⟩ := List.mem_range'_1.mp hi
    refine ⟨⟨i, by omega, rfl⟩, ?_⟩
    intro h0
    have hzero : i = 0 := numbered_injective h0
    omega

/-- With `S0` to `S4294967295` the plan without forcing announces one model in place of the
largest word, and forcing `S0` raises what is announced from one to that word. -/
theorem modelCount_too_small :
    let all := Plan.make (factAndClause (2 ^ 32 - 2)) (.atom (numbered 0)) ⟨false, false⟩
    let forcing := Plan.make (factAndClause (2 ^ 32 - 2)) (.atom (numbered 0)) ⟨true, false⟩
    all.free.length = 2 ^ 32 ∧
      all.modelCount = 1 ∧
      all.modelCount ≠ min (2 ^ all.free.length) (2 ^ 128 - 1) ∧
      forcing.free.length = 2 ^ 32 - 1 ∧
      forcing.modelCount = 2 ^ 128 - 1 ∧
      ¬ forcing.modelCount ≤ all.modelCount := by
  intro all forcing
  have hall : all.free.length = 2 ^ 32 := length_free_all (2 ^ 32 - 2) rfl
  have hforcing : forcing.free.length = 2 ^ 32 - 1 := length_free_forcing (2 ^ 32 - 2) rfl
  have hone : all.modelCount = 1 := by
    rw [modelCount_eq, hall]
    rfl
  have hmax : forcing.modelCount = 2 ^ 128 - 1 := by
    rw [modelCount_eq, hforcing]
    exact saturated_pow_of_le (by decide)
  have hharm : ¬ CutHarmless all := by
    rw [CutHarmless, hall]
    decide
  refine ⟨hall, hone, Nat.ne_of_lt (modelCount_lt_of_harmful hharm), hforcing, hmax, ?_⟩
  rw [hone, hmax]
  decide

end TruthTable.Proofs.ModelCount

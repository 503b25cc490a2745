import UfsRedis.Protocol.OpIds
import UfsRedis.Ot.SetTp1

/-!
# The fixed buffers

`controlAlg` writes the port and the number of an operation with `itos` into `buf1[Port_Num+1]` and
`buf2[Max_Op_Num]`. `findstr` and `cpltClass` copy the first name of a set into `r[10]` and
`r_s[10]`. None of these writes is checked.
-/

namespace UfsRedis

open List

/-! ## Where an overflow comes from -/

theorem bind_ne_overflow {α β : Type} {x : Except Fault α} {f : α → Except Fault β}
    (hx : x ≠ .error .bufferOverflow) (hf : ∀ a, f a ≠ .error .bufferOverflow) :
    (x >>= f) ≠ .error .bufferOverflow := by
  obtain e | a := x
  · simpa using hx
  simpa using hf a

theorem bind_overflow_iff {α β : Type} {x : Except Fault α} {f : α → Except Fault β}
    (hf : ∀ a, f a ≠ .error .bufferOverflow) :
    (x >>= f) = .error .bufferOverflow ↔ x = .error .bufferOverflow := by
  obtain e | a := x
  · simp
  simpa using hf a

theorem matchName_ne_overflow (fin : Option Char → Bool) (left : Bool) (b s : Sds) :
    matchName fin left b s ≠ .error .bufferOverflow := by
  fun_induction matchName fin left b s with
  | case1 => simp
  | case2 => simp
  | case3 x b s hs ih => exact bind_ne_overflow ih fun a => by simp
  | case4 => simp
  | case5 => simp

theorem findstrLoop_ne_overflow (s : Sds) (n : Nat) (prev : Option Char) (b : Sds) :
    findstrLoop s n prev b ≠ .error .bufferOverflow := by
  induction n generalizing prev b with
  | zero => simp [findstrLoop]
  | succ n ih =>
    rw [findstrLoop]
    refine bind_ne_overflow (matchName_ne_overflow _ _ _ _) fun r => ?_
    obtain _ | i := r
    · simp
    dsimp only
    split
    · simp
    split
    · simp
    split
    · simp
    · exact ih _ _

theorem cpltMatch_ne_overflow (left : Bool) (b s : Sds) :
    cpltMatch left b s ≠ .error .bufferOverflow := by
  fun_induction cpltMatch left b s <;> simp_all

theorem cpltFind_ne_overflow (sub : Sds) (n : Nat) (prev : Option Char) (b : Sds) :
    cpltFind sub n prev b ≠ .error .bufferOverflow := by
  induction n generalizing prev b with
  | zero => simp [cpltFind]
  | succ n ih =>
    rw [cpltFind]
    refine bind_ne_overflow (cpltMatch_ne_overflow _ _ _) fun found => ?_
    split
    · simp
    · exact ih _ _

theorem cpltLoop_ne_overflow (s sub : Sds) (type : OtFlag) (n : Nat) (b : Sds) :
    cpltLoop s sub type n b ≠ .error .bufferOverflow := by
  fun_induction cpltLoop s sub type n b with
  | case1 => simp
  | case2 => simp
  | case3 => simp
  | case4 n c b x b' hb cls rest commaClass hcount ih =>
    refine bind_ne_overflow (cpltFind_ne_overflow _ _ _ _) fun found => ?_
    obtain _ | _ := found
    · exact ih
    simp only [if_true]
    split
    · simp
    · cases type <;> simp
  | case5 n c b x b' hb cls rest commaClass hcount ih => exact ih

/-! ## Names -/

theorem not_mem_of_mem_splitOn {s x : Sds} {sep : Char} (h : x ∈ s.splitOn sep) : sep ∉ x := by
  induction s generalizing x with
  | nil =>
    rw [splitOn_nil, mem_singleton] at h
    simp [h]
  | cons c s ih =>
    rw [List.splitOn, splitOnP_cons_eq_if_modifyHead] at h
    split at h
    · rcases mem_cons.mp h with rfl | h
      · simp
      · exact ih h
    next hc =>
    have hne : sep ≠ c := fun e => hc (by simp [e])
    rcases hs : List.splitOnP (· == sep) s with _ | ⟨y, ys⟩
    · rw [hs] at h
      simp at h
    have ih' : ∀ {x : Sds}, x ∈ y :: ys → sep ∉ x := fun hx => ih (by rw [List.splitOn, hs]; exact hx)
    rw [hs, modifyHead_cons] at h
    rcases mem_cons.mp h with rfl | h
    · simpa [hne] using ih' (mem_cons_self)
    · exact ih' (mem_cons_of_mem _ h)

theorem comma_not_mem_of_mem_elementsOf {elements x : Sds} (h : x ∈ elementsOf elements) :
    ',' ∉ x := by
  obtain ⟨c, hc, hx⟩ := mem_flatten.mp h
  obtain ⟨eqc, -, rfl⟩ := mem_map.mp hc
  rw [sdssplit] at hx
  split at hx
  · simp at hx
  · exact not_mem_of_mem_splitOn hx

/-! ## The four writes -/

section

variable {X : List Sds}

theorem createOid_overflow_iff {port num : Nat} :
    createOid port num = .error .bufferOverflow ↔ ¬ (port ≤ 16378 ∧ num ≤ 9999) := by
  have hitos : ∀ {v : Int}, itosBuf v 5 = .error .bufferOverflow ↔ ¬ v ≤ 9999 := by
    intro v
    by_cases hv : v ≤ 9999
    · simp [itosBuf_eq hv, hv]
    have hno : ¬ ∃ t, itosBuf v 5 = .ok t := fun ⟨t, ht⟩ => hv (itosBuf_eq_ok.mp ht).1
    rw [itosBuf] at hno ⊢
    split
    · next h => exact absurd ⟨_, if_pos h⟩ hno
    · simp [hv]
  by_cases hfit : port ≤ 16378 ∧ num ≤ 9999
  · simp [createOid_eq hfit.1 hfit.2, hfit]
  rw [createOid, show portBuf = 5 from rfl, show opNumBuf = 5 from rfl]
  simp only [hfit, not_false_eq_true, iff_true]
  by_cases hp : (port : Int) - 6379 ≤ 9999
  · rw [itosBuf_eq hp, ok_bind, hitos.mpr (by omega), error_bind]
  · rw [hitos.mpr hp, error_bind]

theorem firstName_overflow_iff (hX : X ≠ []) (hn : ∀ x ∈ X, ',' ∉ x) :
    firstName (sdsjoin X ',') = .error .bufferOverflow ↔ ¬ (1 < X.length → (first X).length ≤ 9) := by
  obtain _ | ⟨x, X⟩ := X
  · exact absurd rfl hX
  obtain _ | ⟨y, X⟩ := X
  · simp [firstName_of_name (hn x (by simp))]
  rw [firstName_join (hn x (by simp)) (by simp)]
  by_cases h : x.length < 10 <;> simp [first, h] <;> omega

theorem findstr_overflow_iff (buf : Sds) (hX : X ≠ []) (hn : ∀ x ∈ X, ',' ∉ x) :
    findstr buf (sdsjoin X ',') = .error .bufferOverflow ↔
      ¬ (1 < X.length → (first X).length ≤ 9) := by
  rw [findstr, bind_overflow_iff fun s => findstrLoop_ne_overflow s _ _ _, firstName_overflow_iff hX hn]

theorem cpltClass_overflow_iff (buf : Sds) (type : OtFlag) (hX : X ≠ []) (hn : ∀ x ∈ X, ',' ∉ x) :
    cpltClass buf (some (sdsjoin X ',')) type = .error .bufferOverflow ↔
      ¬ (1 < X.length → (first X).length ≤ 9) := by
  rw [cpltClass, bind_overflow_iff fun s => cpltLoop_ne_overflow _ s _ _ _,
    firstName_overflow_iff hX hn]

end

/-! ## Runs -/

variable {sys : System} {events : List Event} {elements : Sds} {sets : List (List Sds)}

/-- No operation of the run passes the end of `buf1` or `buf2`, and no set of elements that of `r` or
`r_s`, whatever the content is in which it is looked for. -/
def BuffersSuffice (sys : System) (events : List Event) (sets : List (List Sds)) : Prop :=
  (∀ x ∈ sys.madeIn events, createOid x.1 x.2 ≠ .error .bufferOverflow) ∧
    ∀ X ∈ sets, ∀ buf, findstr buf (sdsjoin X ',') ≠ .error .bufferOverflow ∧
      ∀ type, cpltClass buf (some (sdsjoin X ',')) type ≠ .error .bufferOverflow

/-- **The buffers suffice** iff every client that makes operations has a port up to 16378 and makes
at most 9999 of them, and the first name of a set of two or more elements has at most 9
characters. -/
theorem buffers_suffice_iff (sys : System) (events : List Event)
    (hsets : ∀ X ∈ sets, X ≠ [] ∧ X ⊆ elementsOf elements) :
    BuffersSuffice sys events sets ↔ (∀ x ∈ sys.madeIn events, x.1 ≤ 16378 ∧ x.2 ≤ 9999) ∧
      ∀ X ∈ sets, 1 < X.length → (first X).length ≤ 9 := by
  have hnames : ∀ X ∈ sets, ∀ x ∈ X, ',' ∉ x := fun X hX x hx =>
    comma_not_mem_of_mem_elementsOf ((hsets X hX).2 hx)
  unfold BuffersSuffice
  refine and_congr (forall₂_congr fun x _ => ?_) (forall₂_congr fun X hX => ?_)
  · rw [Ne, createOid_overflow_iff, not_not]
  have hfind := fun buf => findstr_overflow_iff buf (hsets X hX).1 (hnames X hX)
  have hcplt := fun buf type => cpltClass_overflow_iff buf type (hsets X hX).1 (hnames X hX)
  simp only [Ne, hfind, hcplt, not_not]
  exact ⟨fun h => (h []).1, fun h _ => ⟨h, fun _ => h⟩⟩

/-- A client on port 16378 that makes an operation, and a set with a first name of 9 characters. -/
theorem buffers_suffice_iff_nine :
    ∃ sys, System.boot [16378] [(['k'], ['a', ',', 'b'])] = .ok sys ∧
      sys.madeIn [.user 0 [splitCmd, ['a'], ['k']]] = [(16378, 1)] ∧
      BuffersSuffice sys [.user 0 [splitCmd, ['a'], ['k']]] [[List.replicate 9 'x', ['y']]] := by
  refine exists_ok_imp (P := fun sys => sys.madeIn [.user 0 [splitCmd, ['a'], ['k']]] =
    [(16378, 1)]) (by decide +kernel) ?_
  intro sys _ hmade
  have hnames : ∀ X ∈ [[replicate 9 'x', ['y']]],
      X ≠ [] ∧ X ⊆ elementsOf (replicate 9 'x' ++ [',', 'y']) := by
    decide +kernel
  refine ⟨hmade, (buffers_suffice_iff sys _ hnames).mpr ⟨?_, by decide⟩⟩
  rw [hmade]
  decide

/-- A client on port 16379 writes `10000` and its terminator into `buf1[5]` with its first operation,
and a set with a first name of 10 characters does not fit `r[10]`. -/
theorem buffers_overflow :
    (∃ sys, System.boot [16379] [(['k'], ['a', ',', 'b'])] = .ok sys ∧
      sys.run [.user 0 [splitCmd, ['a'], ['k']]] = .error .bufferOverflow) ∧
    createOid 6380 10000 = .error .bufferOverflow ∧
    findstr ['a'] (sdsjoin [List.replicate 10 'x', ['y']] ',') = .error .bufferOverflow ∧
    cpltClass ['a'] (some (sdsjoin [List.replicate 10 'x', ['y']] ',')) .split =
      .error .bufferOverflow := by
  decide +kernel

end UfsRedis

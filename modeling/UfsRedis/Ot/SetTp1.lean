import UfsRedis.Ufs.SetOps

/-!
# Transformation of operations with sets

With `OT_UNION`, `otUfs` looks for `split T` in the operands of a union by the first name of `T` in
a set, and by the whole string in a single element. It misses the other ways in which the union can
meet `T`.

* `Noticed`: `otUfs` replaces the operand;
* `otUnionArgs_eq`: the operands after the transformation, and what their union does (`movedAct`);
* `UnionSplitOk`: when the two orders meet;
* `converges_iff`: for accepted operations the two orders meet iff `UnionSplitOk` holds.
-/

namespace UfsRedis

open List Lib Partition

def classIn (S x : Sds) : List Sds := ((classesOf S).find? (x ∈ ·)).getD []

/-- The members of the class of `T` that are not in `T`. -/
def restOf (S : Sds) (T : List Sds) : List Sds := (classIn S (first T)).filter (· ∉ T)

/-- `otUfs` replaces the operand `X` of a union against `split T`. -/
def Noticed (X T : List Sds) : Prop := first T ∈ X ∧ (1 < X.length ∨ T.length = 1)

instance (X T : List Sds) : Decidable (Noticed X T) := inferInstanceAs (Decidable (_ ∧ _))

/-- The operand `X` after the transformation, if `z` is what replaces it. -/
def moved (z : Sds) (T X : List Sds) : List Sds := if Noticed X T then [z] else X

/-- The union of `X` and `Y` is outside of `T`, or inside, or both `X` and `Y` look like one class
before and after the split, by their first names. -/
def Clear (S : Sds) (X Y T : List Sds) : Prop :=
  (∀ x ∈ X ++ Y, x ∉ T) ∨ (∀ x ∈ X ++ Y, x ∈ T) ∨
    (first X ≠ first Y ∧ InClass (classesOf S) (first X) (first Y) ∧ (first X ∈ T ↔ first Y ∈ T))

instance (S : Sds) (X Y T : List Sds) : Decidable (Clear S X Y T) :=
  inferInstanceAs (Decidable (_ ∨ _ ∨ _))

/-- When the two orders meet, if an operand is replaced by the first name of the rest. An element
`*` that replaces it is taken for the marker. -/
def MovedOk (S : Sds) (X Y T : List Sds) : List Sds → Prop
  | [] => True
  | z :: _ =>
    if z = star then InClass (classesOf S) (first X) (first Y)
    else Clear S (moved z T X) (moved z T Y) T

instance (S : Sds) (X Y T : List Sds) : DecidablePred (MovedOk S X Y T)
  | [] => inferInstanceAs (Decidable True)
  | z :: _ => inferInstanceAs (Decidable (if z = star then _ else _))

/-- When the two orders of `union X Y` and `split T` meet. The first name of a set `T` has to fit
the buffer of `findstr`. -/
def UnionSplitOk (S : Sds) (X Y T : List Sds) : Prop :=
  ((1 < X.length ∨ 1 < Y.length) → 1 < T.length → (first T).length < 10) ∧
    if Noticed X T ∨ Noticed Y T then MovedOk S X Y T (restOf S T) else Clear S X Y T

instance (S : Sds) (X Y T : List Sds) : Decidable (UnionSplitOk S X Y T) :=
  inferInstanceAs (Decidable (_ ∧ if Noticed X T ∨ Noticed Y T then _ else _))

/-- What the transformed union does to the partition `q`. -/
noncomputable def movedAct (S : Sds) (q : Setoid Sds) (X Y T : List Sds) : Setoid Sds :=
  if Noticed X T ∨ Noticed Y T then
    match restOf S T with
    | [] => q
    | z :: _ => if z = star then q else unionAct q (moved z T X) (moved z T Y)
  else unionAct q X Y

variable {S z : Sds} {E X Y T : List Sds} {g : CudGraph}

/-! ## The scanners on accepted operands -/

section

/-- An operand of the content `S`. -/
abbrev InContent (S : Sds) (X : List Sds) : Prop := OperandOk (elementsOf S) (denote S) X

theorem InContent.nameOk (hX : InContent S X) (hS : WellFormed S) : ∀ x ∈ X, NameOk x :=
  fun x hx => hS.shows.name_ok (hX.mem x hx)

theorem firstName_operand (hT : T ≠ []) (hn : ∀ x ∈ T, NameOk x) : firstName (sdsjoin T ',') =
      if 1 < T.length ∧ ¬ (first T).length < 10 then .error .bufferOverflow else .ok (first T) := by
  match T, hT with
  | [t], _ => simpa [first] using firstName_of_name (hn t (by simp)).2.1
  | t :: u :: T, _ =>
    rw [firstName_join (hn t (by simp)).2.1 (by simp)]
    by_cases h : t.length < 10 <;> simp [first, h]

variable {x y : Sds}

theorem classIn_mem (hx : x ∈ elementsOf S) : classIn S x ∈ classesOf S ∧ x ∈ classIn S x := by
  obtain ⟨c, hc, hxc⟩ := mem_flatten.mp hx
  rcases hf : (classesOf S).find? (x ∈ ·) with _ | d
  · have := find?_eq_none.mp hf c hc
    simp [hxc] at this
  have := find?_some hf
  rw [classIn, hf]
  exact ⟨mem_of_find?_eq_some hf, by simpa using this⟩

section

variable (hS : WellFormed S)
include hS

theorem mem_classIn_iff (hx : x ∈ elementsOf S) : y ∈ classIn S x ↔ denote S y x := by
  obtain ⟨cs, rfl, -⟩ := hS.exists_classes
  obtain ⟨hc, hxc⟩ := classIn_mem hx
  rw [cs.classesOf_render] at hc
  rw [cs.denote_render]
  exact (cs.partition_iff_mem hc hxc).symm

theorem mem_restOf (hT : InContent S T) : x ∈ restOf S T ↔ denote S x (first T) ∧ x ∉ T := by
  rw [restOf, mem_filter, mem_classIn_iff hS (hT.mem _ (first_mem hT.ne)), decide_eq_true_eq]

theorem mem_elements_of_denote (hx : x ∈ elementsOf S) (h : denote S y x) : y ∈ elementsOf S := by
  obtain ⟨hc, -⟩ := classIn_mem hx
  exact mem_flatten.mpr ⟨_, hc, (mem_classIn_iff hS hx).mpr h⟩

theorem InContent.mem_classIn (hT : InContent S T) : ∀ x ∈ T, x ∈ classIn S (first T) := fun x hx =>
  (mem_classIn_iff hS (hT.mem _ (first_mem hT.ne))).mpr (hT.rel x hx _ (first_mem hT.ne))

theorem cpltClass_operand (hT : InContent S T) (hfit : 1 < T.length → (first T).length < 10) :
    cpltClass S (some (sdsjoin T ',')) .union = .ok ((restOf S T).headD star) := by
  obtain ⟨cs, rfl, -⟩ := hS.exists_classes
  obtain ⟨hc, -⟩ := classIn_mem (hT.mem _ (first_mem hT.ne))
  have hsub := hT.mem_classIn hS
  rw [cs.classesOf_render] at hc
  match T, hT.ne with
  | t :: T, _ =>
    rw [cpltClass_render .union hc hT.nodup hsub ?_, restOf, headD_eq_head?_getD,
      head?_filter, cpltResult]
    · split
      · next hall =>
        have hnone : (classIn cs.render (first (t :: T))).find? (· ∉ t :: T) = none := by
          rw [find?_eq_none]
          exact fun x hx => by rw [decide_eq_true_eq, not_not]; exact hall x hx
        rw [hnone, Option.getD_none]
      next hall =>
      rcases hf : (classIn cs.render (first (t :: T))).find? (· ∉ t :: T) with _ | z
      · refine absurd (fun x hx => ?_) hall
        have hx' := find?_eq_none.mp hf x hx
        rwa [decide_eq_true_eq, not_not] at hx'
      rfl
    cases T with
    | nil => exact .inl rfl
    | cons u T => exact .inr (hfit (by simp))

end

theorem findstr_operand (hX : X ≠ []) (hXn : ∀ x ∈ X, NameOk x) (hT : T ≠ [])
    (hTn : ∀ x ∈ T, NameOk x) (hfit : 1 < T.length → (first T).length < 10) :
    findstr (sdsjoin X ',') (sdsjoin T ',') = .ok (decide (first T ∈ X)) := by
  have hname := hTn _ (first_mem hT)
  refine findstr_join ?_ hname.1 hname.2.1 hX fun x hx => (hXn x hx).comma
  rw [firstName_operand hT hTn, if_neg fun h => h.2 (hfit h.1)]

theorem findstr_overflow (hT : T ≠ []) (hTn : ∀ x ∈ T, NameOk x)
    (hfit : 1 < T.length ∧ ¬ (first T).length < 10) :
    findstr (sdsjoin X ',') (sdsjoin T ',') = .error .bufferOverflow := by
  rw [findstr, firstName_operand hT hTn, if_pos hfit, error_bind]

theorem noticed_set (h : 1 < X.length) : Noticed X T ↔ first T ∈ X := by
  simp [Noticed, h]

theorem noticed_single (hx : NameOk x) (hT : T ≠ []) (hTn : ∀ x ∈ T, NameOk x) :
    Noticed [x] T ↔ x = sdsjoin T ',' := by
  constructor
  · rintro ⟨hmem, hlen⟩
    have hone : T.length = 1 := hlen.resolve_left (by simp)
    obtain ⟨t, rfl⟩ := exists_singleton hT (by omega)
    rw [sdsjoin_singleton]
    exact (mem_singleton.mp hmem).symm
  intro h
  have hTx : T = [x] := by rw [← split_operand hTn, ← h, sdssplit_name hx]
  rw [hTx]
  exact ⟨by simp [first], .inr rfl⟩

/-- **The operands of a union after the transformation**, in terms of `Noticed`. -/
theorem otUnionArgs_eq (hS : WellFormed S) (hX : InContent S X) (hY : InContent S Y)
    (hT : InContent S T) (hXs : sdsjoin X ',' ≠ star) (hYs : sdsjoin Y ',' ≠ star)
    (hfit : (1 < X.length ∨ 1 < Y.length) → 1 < T.length → (first T).length < 10) :
    otUnionArgs S (sdsjoin X ',') (sdsjoin Y ',') (sdsjoin T ',') =
      if ¬ 1 < X.length ∧ X = Y then .ok (sdsjoin X ',', sdsjoin Y ',')
      else .ok (if Noticed X T then (restOf S T).headD star else sdsjoin X ',',
        if Noticed Y T then (restOf S T).headD star else sdsjoin Y ',') := by
  have hXn := hX.nameOk hS
  have hYn := hY.nameOk hS
  have hTn := hT.nameOk hS
  -- an operand that is replaced
  have hcplt : (1 < X.length ∨ 1 < Y.length) ∨ T.length = 1 →
      cpltClass S (some (sdsjoin T ',')) .union = .ok ((restOf S T).headD star) := fun h =>
    cpltClass_operand hS hT fun hlen => hfit (h.resolve_right (by omega)) hlen
  simp only [otUnionArgs, isSet_join hX.ne hXn, isSet_join hY.ne hYn]
  by_cases hX1 : 1 < X.length <;> by_cases hY1 : 1 < Y.length <;>
    simp only [hX1, hY1, decide_true, decide_false, not_true, false_and, if_false]
  · rw [findstr_operand hX.ne hXn hT.ne hTn (hfit (.inl hX1)),
      findstr_operand hY.ne hYn hT.ne hTn (hfit (.inl hX1)), hcplt (.inl (.inl hX1))]
    by_cases h1 : first T ∈ X <;> by_cases h2 : first T ∈ Y <;>
      simp [h1, h2, noticed_set hX1, noticed_set hY1]
  · obtain ⟨y, rfl⟩ := exists_singleton hY.ne hY1
    rw [findstr_operand hX.ne hXn hT.ne hTn (hfit (.inl hX1)), hcplt (.inl (.inl hX1)),
      sdsjoin_singleton]
    have hny := (noticed_single (hYn y (by simp)) hT.ne hTn).symm
    by_cases h1 : first T ∈ X <;> by_cases h2 : Noticed [y] T <;>
      simp [h1, h2, hny, noticed_set hX1]
  · obtain ⟨x, rfl⟩ := exists_singleton hX.ne hX1
    have hne : [x] ≠ Y := fun h => hX1 (h ▸ hY1)
    rw [findstr_operand hY.ne hYn hT.ne hTn (hfit (.inr hY1)), hcplt (.inl (.inr hY1)),
      sdsjoin_singleton]
    have hnx := (noticed_single (hXn x (by simp)) hT.ne hTn).symm
    by_cases h1 : first T ∈ Y <;> by_cases h2 : Noticed [x] T <;>
      simp [h1, h2, hnx, hne, noticed_set hY1]
  obtain ⟨x, rfl⟩ := exists_singleton hX.ne hX1
  obtain ⟨y, rfl⟩ := exists_singleton hY.ne hY1
  simp only [sdsjoin_singleton] at hXs hYs ⊢
  have hnx := (noticed_single (hXn x (by simp)) hT.ne hTn).symm
  have hny := (noticed_single (hYn y (by simp)) hT.ne hTn).symm
  by_cases hxy : x = y
  · simp [hxy]
  by_cases h1 : Noticed [x] T
  · have h2 : ¬ Noticed [y] T := fun h => hxy ((hnx.mpr h1).trans (hny.mpr h).symm)
    simp [hxy, hXs, hYs, hnx, h1, h2, hcplt (.inr (h1.2.resolve_left (by simp)))]
  by_cases h2 : Noticed [y] T
  · simp [hxy, hXs, hYs, hnx, hny, h1, h2, hcplt (.inr (h2.2.resolve_left (by simp)))]
  · simp [hxy, hXs, hYs, hnx, hny, h1, h2]

theorem otUnionArgs_overflow (hX : X ≠ []) (hXn : ∀ x ∈ X, NameOk x) (hY : Y ≠ [])
    (hYn : ∀ x ∈ Y, NameOk x) (hT : T ≠ []) (hTn : ∀ x ∈ T, NameOk x)
    (hset : 1 < X.length ∨ 1 < Y.length) (hfit : 1 < T.length ∧ ¬ (first T).length < 10) :
    otUnionArgs S (sdsjoin X ',') (sdsjoin Y ',') (sdsjoin T ',') = .error .bufferOverflow := by
  simp only [otUnionArgs, isSet_join hX hXn, isSet_join hY hYn, findstr_overflow hT hTn hfit]
  by_cases hX1 : 1 < X.length <;> by_cases hY1 : 1 < Y.length
  · simp [hX1, hY1]
  · simp [hX1, hY1]
  · simp [hX1, hY1]
  · exact absurd hset (by simp [hX1, hY1])

end

/-! ## The transformed union -/

section

variable {q : Setoid Sds}

theorem unionAct_self (x : Sds) : unionAct q [x] [x] = q := by
  rw [unionAct_eq_glue fun h => absurd rfl h]
  refine glue_eq_self fun u hu v hv => ?_
  have hmem : ∀ {w : Sds}, w ∈ [x] ++ [x] → w = x := fun hw => by simpa using hw
  rw [hmem hu, hmem hv]

theorem movedAct_self (x : Sds) : movedAct S q [x] [x] T = q := by
  unfold movedAct
  split
  · next hn =>
    have hn : Noticed [x] T := hn.elim id id
    obtain _ | ⟨z, rest⟩ := restOf S T
    · rfl
    simp only [moved, if_pos hn, unionAct_self, ite_self]
  · exact unionAct_self x

theorem moved_ne (hX : X ≠ []) : moved z T X ≠ [] := by
  unfold moved
  split
  · simp
  · exact hX

theorem moved_mem (hX : ∀ x ∈ X, x ∈ E) (hz : z ∈ E) : ∀ x ∈ moved z T X, x ∈ E := by
  unfold moved
  split
  · simpa using hz
  · exact hX

theorem join_moved : sdsjoin (moved z T X) ',' = if Noticed X T then z else sdsjoin X ',' := by
  unfold moved
  split
  · exact sdsjoin_singleton z ','
  · rfl

theorem unionProc_star (h : a = star ∨ b = star) : unionProc g a b = .ok g := by
  rw [unionProc, if_pos h]

theorem GraphShows.unionProc_moved (hS : WellFormed S) (hE : ∀ x, x ∈ elementsOf S ↔ x ∈ E)
    (hX : InContent S X) (hY : InContent S Y) (hT : InContent S T) (hXs : sdsjoin X ',' ≠ star)
    (hYs : sdsjoin Y ',' ≠ star)
    (hfit : (1 < X.length ∨ 1 < Y.length) → 1 < T.length → (first T).length < 10)
    (hg : GraphShows E g q) :
    ∃ a b g', otUnionArgs S (sdsjoin X ',') (sdsjoin Y ',') (sdsjoin T ',') = .ok (a, b) ∧
      UfsRedis.unionProc g a b = .ok g' ∧ GraphShows E g' (movedAct S q X Y T) := by
  have hXE : ∀ x ∈ X, x ∈ E := fun x hx => (hE x).mp (hX.mem x hx)
  have hYE : ∀ x ∈ Y, x ∈ E := fun x hx => (hE x).mp (hY.mem x hx)
  rw [otUnionArgs_eq hS hX hY hT hXs hYs hfit]
  split
  · next hXY =>
    obtain ⟨x, rfl⟩ := exists_singleton hX.ne hXY.1
    obtain rfl : [x] = Y := hXY.2
    obtain ⟨g', hg', hshow⟩ := hg.unionProc hXE hXE (by simp) (by simp) hXs hXs
    rw [unionAct_self] at hshow
    exact ⟨_, _, g', rfl, hg', by rwa [movedAct_self]⟩
  suffices hrun : ∃ g', UfsRedis.unionProc g
      (if Noticed X T then (restOf S T).headD star else sdsjoin X ',')
      (if Noticed Y T then (restOf S T).headD star else sdsjoin Y ',') = .ok g' ∧
      GraphShows E g' (movedAct S q X Y T) by
    obtain ⟨g', hg', hshow⟩ := hrun
    exact ⟨_, _, g', rfl, hg', hshow⟩
  by_cases hn : Noticed X T ∨ Noticed Y T
  · rcases hr : restOf S T with _ | ⟨z, rest⟩
    · rw [movedAct, if_pos hn, hr]
      refine ⟨g, unionProc_star ?_, hg⟩
      exact hn.imp (fun h => if_pos h) fun h => if_pos h
    have hz := (mem_restOf hS hT).mp (hr ▸ mem_cons_self : z ∈ restOf S T)
    have hzE : z ∈ E := (hE z).mp
      (mem_elements_of_denote hS (hT.mem _ (first_mem hT.ne)) hz.1)
    simp only [movedAct, if_pos hn, hr, headD_cons]
    by_cases hzs : z = star
    · rw [if_pos hzs]
      refine ⟨g, unionProc_star ?_, hg⟩
      exact hn.imp (fun h => (if_pos h).trans hzs) fun h => (if_pos h).trans hzs
    have hms : ∀ {X : List Sds}, sdsjoin X ',' ≠ star → sdsjoin (moved z T X) ',' ≠ star := by
      intro X hXs
      rw [join_moved]
      split
      · exact hzs
      · exact hXs
    obtain ⟨g', hg', hshow⟩ := hg.unionProc (moved_mem (T := T) hXE hzE) (moved_mem hYE hzE)
      (moved_ne hX.ne) (moved_ne hY.ne) (hms hXs) (hms hYs)
    rw [join_moved, join_moved] at hg'
    exact ⟨g', hg', by rwa [if_neg hzs]⟩
  obtain ⟨hnX, hnY⟩ := not_or.mp hn
  obtain ⟨g', hg', hshow⟩ := hg.unionProc hXE hYE hX.ne hY.ne hXs hYs
  rw [if_neg hnX, if_neg hnY, movedAct, if_neg hn]
  exact ⟨g', hg', hshow⟩

end

/-! ## When the orders meet -/

theorem denote_iff_inClass (hS : WellFormed S) (hx : x ∈ elementsOf S) :
    denote S x y ↔ InClass (classesOf S) x y := by
  rw [hS.denote_iff]
  refine ⟨fun h => h.elim (fun he => ?_) id, .inr⟩
  obtain ⟨c, hc, hxc⟩ := mem_flatten.mp hx
  exact ⟨c, hc, hxc, he ▸ hxc⟩

theorem clear_iff (hS : WellFormed S) (hX : InContent S X) (hY : InContent S Y)
    (hT : InContent S T) : cut (glue (denote S) {x | x ∈ X ++ Y}) {x | x ∈ T} =
      unionAct (cut (denote S) {x | x ∈ T}) X Y ↔ Clear S X Y T := by
  have hclass := denote_iff_inClass hS (y := first Y) (hX.mem _ (first_mem hX.ne))
  have hcut := cut_glue_eq_iff (X := {x | x ∈ X ++ Y}) (T := {x | x ∈ T}) hT.rel
  by_cases hrel : first X ≠ first Y ∧ cut (denote S) {x | x ∈ T} (first X) (first Y)
  · -- the first names are of one class on both ways, so nothing is glued
    obtain ⟨hp, hside⟩ := cut_iff.mp hrel.2
    rw [unionAct_of_rel hrel.1 hrel.2, glue_append hX hY hp]
    exact iff_of_true rfl (.inr (.inr ⟨hrel.1, hclass.mp hp, hside⟩))
  rw [unionAct, if_neg hrel, hcut]
  refine ⟨fun h => h.imp_right .inl, fun h => ?_⟩
  rcases h with h | h | ⟨hne, hp, hside⟩
  · exact .inl h
  · exact .inr h
  · exact absurd ⟨hne, cut_iff.mpr ⟨hclass.mpr hp, hside⟩⟩ hrel

theorem meets_append (hX : OperandOk E p X) (hY : OperandOk E p Y)
    : Meets p {x | x ∈ X ++ Y} u ↔ p u (first X) ∨ p u (first Y) := by
  constructor
  · rintro ⟨x, hx, hux⟩
    exact (mem_append.mp hx).imp
      (fun hx => p.trans' hux (hX.rel x hx _ (first_mem hX.ne)))
      fun hx => p.trans' hux (hY.rel x hx _ (first_mem hY.ne))
  rintro (h | h)
  · exact ⟨_, mem_append_left _ (first_mem hX.ne), h⟩
  · exact ⟨_, mem_append_right _ (first_mem hY.ne), h⟩

theorem operandOk_moved (hX : InContent S X) (hz : z ∈ elementsOf S) :
    InContent S (moved z T X) := by
  unfold moved
  split
  · exact ⟨by simp, by simp, by simpa using hz, by simp⟩
  · exact hX

theorem first_moved (hX : InContent S X) (hz : denote S z (first T)) :
    denote S (first (moved z T X)) (first X) := by
  unfold moved
  split
  · next hn => exact (denote S).trans' hz (hX.rel _ hn.1 _ (first_mem hX.ne))
  · exact (denote S).refl' _

theorem glue_moved (hX : InContent S X) (hY : InContent S Y) (hz : denote S z (first T))
    (hzE : z ∈ elementsOf S) :
    glue (denote S) {x | x ∈ moved z T X ++ moved z T Y} = glue (denote S) {x | x ∈ X ++ Y} := by
  refine glue_congr fun u => ?_
  rw [meets_append (operandOk_moved hX hzE) (operandOk_moved hY hzE), meets_append hX hY]
  have hiff : ∀ {X : List Sds}, InContent S X →
      (denote S u (first (moved z T X)) ↔ denote S u (first X)) := fun hX =>
    ⟨fun h => (denote S).trans' h (first_moved hX hz),
      fun h => (denote S).trans' h ((denote S).symm' (first_moved hX hz))⟩
  rw [hiff hX, hiff hY]

theorem marker_iff (hS : WellFormed S) (hX : InContent S X) (hY : InContent S Y)
    (hT : InContent S T) (hn : first T ∈ X) :
    cut (glue (denote S) {x | x ∈ X ++ Y}) {x | x ∈ T} = cut (denote S) {x | x ∈ T} ↔
      restOf S T = [] ∨ denote S (first X) (first Y) := by
  have hTX : ∀ {u}, denote S u (first T) ↔ denote S u (first X) := by
    intro u
    have hrel := hX.rel _ hn _ (first_mem hX.ne)
    exact ⟨fun h => (denote S).trans' h hrel, fun h => (denote S).trans' h ((denote S).symm' hrel)⟩
  -- if the operands are of two classes, the second is outside of `T`
  have hout : ¬ denote S (first X) (first Y) → ∀ y ∈ Y, y ∉ T := fun hp y hy hyT =>
    hp ((denote S).trans' ((denote S).symm' (hTX.mp (hT.rel y hyT _ (first_mem hT.ne))))
      (hY.rel y hy _ (first_mem hY.ne)))
  constructor
  · intro h
    by_cases hp : denote S (first X) (first Y)
    · exact .inr hp
    refine .inl (eq_nil_iff_forall_not_mem.mpr fun z hz => hp ?_)
    obtain ⟨hzT, hzn⟩ := (mem_restOf hS hT).mp hz
    have hglue : glue (denote S) {x | x ∈ X ++ Y} z (first Y) := glue_iff.mpr (.inr
      ⟨(meets_append hX hY).mpr (.inl (hTX.mp hzT)),
        (meets_append hX hY).mpr (.inr ((denote S).refl' _))⟩)
    have hcut : cut (denote S) {x | x ∈ T} z (first Y) := h ▸ cut_iff.mpr
      ⟨hglue, iff_of_false hzn (hout hp _ (first_mem hY.ne))⟩
    exact (denote S).trans' ((denote S).symm' (hTX.mp hzT)) (cut_iff.mp hcut).1
  intro h
  by_cases hp : denote S (first X) (first Y)
  · rw [glue_append hX hY hp]
  have hnil := h.resolve_right hp
  have hall : ∀ u, denote S u (first X) → u ∈ T := fun u hu => by
    by_contra hun
    exact absurd ((mem_restOf hS hT).mpr ⟨hTX.mpr hu, hun⟩) (by simp [hnil])
  have hglue := cut_glue (p := denote S) (X := {x | x ∈ X ++ Y}) (T := {x | x ∈ T}) hT.rel
    (hout hp) fun u hu => ?_
  rw [hglue]
  · refine glue_eq_self fun x hx y hy => cut_iff.mpr ⟨hY.rel x hx y hy, ?_⟩
    exact iff_of_false (hout hp x hx) (hout hp y hy)
  rw [meets_append hX hY]
  refine ⟨fun h => ?_, fun ⟨y, hy, h⟩ => .inr ((denote S).trans' h
    (hY.rel y hy _ (first_mem hY.ne)))⟩
  exact ⟨_, first_mem hY.ne, h.resolve_left fun hu' => hu (hall u hu')⟩

theorem append_comm_set (X Y : List Sds) : {x | x ∈ X ++ Y} = {x | x ∈ Y ++ X} := by
  ext x
  simp [or_comm]

theorem square_iff (hS : WellFormed S) (hX : InContent S X) (hY : InContent S Y)
    (hT : InContent S T)
    (hfit : (1 < X.length ∨ 1 < Y.length) → 1 < T.length → (first T).length < 10) :
    cut (glue (denote S) {x | x ∈ X ++ Y}) {x | x ∈ T} =
      movedAct S (cut (denote S) {x | x ∈ T}) X Y T ↔ UnionSplitOk S X Y T := by
  rw [UnionSplitOk, and_iff_right hfit]
  by_cases hn : Noticed X T ∨ Noticed Y T
  · have hmarker : cut (glue (denote S) {x | x ∈ X ++ Y}) {x | x ∈ T} =
        cut (denote S) {x | x ∈ T} ↔ restOf S T = [] ∨ InClass (classesOf S) (first X) (first Y) := by
      rw [← denote_iff_inClass hS (hX.mem _ (first_mem hX.ne))]
      rcases hn with hn | hn
      · exact marker_iff hS hX hY hT hn.1
      rw [append_comm_set, marker_iff hS hY hX hT hn.1]
      exact or_congr_right ⟨(denote S).symm', (denote S).symm'⟩
    rw [movedAct, if_pos hn, if_pos hn]
    rcases hr : restOf S T with _ | ⟨z, rest⟩
    · exact iff_of_true (hmarker.mpr (.inl hr)) trivial
    obtain ⟨hz, -⟩ := (mem_restOf hS hT).mp (hr ▸ mem_cons_self : z ∈ restOf S T)
    have hzE := mem_elements_of_denote hS (hT.mem _ (first_mem hT.ne)) hz
    by_cases hzs : z = star
    · simp only [MovedOk, if_pos hzs]
      rw [hmarker, hr]
      simp
    simp only [MovedOk, if_neg hzs]
    rw [← glue_moved hX hY hz hzE]
    exact clear_iff hS (operandOk_moved hX hzE) (operandOk_moved hY hzE) hT
  rw [movedAct, if_neg hn, if_neg hn]
  exact clear_iff hS hX hY hT

/-! ## TP1 -/

/-- Both orders of two operations can be executed, and give the same partition. -/
def Converges (S : Sds) (g : CudGraph) (op1 op2 : UfsOp) : Prop :=
  ∃ e1 e2 g1 g12 g2 g21, otUfs S op1 op2 .union = .ok (e1, e2) ∧ execOp g op1 = .ok g1 ∧
    execOp g1 e2 = .ok g12 ∧ execOp g op2 = .ok g2 ∧ execOp g2 e1 = .ok g21 ∧
    g12.partition = g21.partition

/-- An operation that `checkUnionArgv` or `checkSplitArgv` accepts. -/
inductive Accepted (g : CudGraph) : UfsOp → Prop
  | union {a b : Sds} (h : checkUnionArgv g a b = .ok none) : Accepted g (unionOp a b)
  | split {a : Sds} (h : checkSplitArgv g a = .ok none) : Accepted g (splitOp a)

/-- When the two orders of `union a b` and `split t` meet. -/
def UnionSplitWhen (S a b t : Sds) : Prop :=
  a = star ∨ b = star ∨ t = star ∨
    UnionSplitOk S (sdssplit a ',') (sdssplit b ',') (sdssplit t ',')

instance (S a b t : Sds) : Decidable (UnionSplitWhen S a b t) :=
  inferInstanceAs (Decidable (_ ∨ _ ∨ _ ∨ _))

/-- When the two orders of two operations meet: operations of one kind always do. -/
def ConvergesWhen (S : Sds) (op1 op2 : UfsOp) : Prop :=
  match op1.optype, op2.optype with
  | .union, .split => UnionSplitWhen S op1.argv1 (op1.argv2.getD []) op2.argv1
  | .split, .union => UnionSplitWhen S op2.argv1 (op2.argv2.getD []) op1.argv1
  | .union, .union => True
  | .split, .split => True

section

variable {a b t : Sds}

theorem exists_ne_star (hnd : X.Nodup) (hmem : star ∈ X) (hne : X ≠ [star]) :
    ∃ x ∈ X, x ≠ star := by
  match X, hmem with
  | [x], hmem => exact absurd (congrArg (fun y => [y]) (mem_singleton.mp hmem).symm) hne
  | x :: y :: X, _ =>
    by_cases hx : x = star
    · refine ⟨y, by simp, fun hy => ?_⟩
      rw [hx, hy] at hnd
      simp at hnd
    · exact ⟨x, by simp, hx⟩

theorem movedAct_star (hS : WellFormed S) (hX : InContent S X) (hY : InContent S Y)
    (hT : InContent S [star]) (hXs : X ≠ [star]) (hYs : Y ≠ [star]) :
    movedAct S (denote S) X Y [star] = glue (denote S) {x | x ∈ X ++ Y} := by
  by_cases hn : Noticed X [star] ∨ Noticed Y [star]
  · rw [movedAct, if_pos hn]
    rcases hr : restOf S [star] with _ | ⟨z, rest⟩
    · have hrest : ∀ {X : List Sds}, InContent S X → X ≠ [star] → ¬ Noticed X [star] := by
        intro X hX hXs hn
        obtain ⟨x, hx, hxs⟩ := exists_ne_star hX.nodup hn.1 hXs
        have hmem := (mem_restOf hS hT (x := x)).mpr ⟨hX.rel x hx _ hn.1, by simpa using hxs⟩
        simp [hr] at hmem
      exact absurd hn (not_or.mpr ⟨hrest hX hXs, hrest hY hYs⟩)
    obtain ⟨hz, hzT⟩ := (mem_restOf hS hT).mp (hr ▸ mem_cons_self : z ∈ restOf S [star])
    have hzE := mem_elements_of_denote hS (hT.mem _ (first_mem hT.ne)) hz
    have hzs : z ≠ star := by simpa using hzT
    simp only [if_neg hzs]
    rw [unionAct_of_operands (operandOk_moved hX hzE) (operandOk_moved hY hzE),
      glue_moved hX hY hz hzE]
  · rw [movedAct, if_neg hn, unionAct_of_operands hX hY]

theorem otUnionArgs_star (h : Shows E S (denote S)) (ha : ArgOk E a) (hb : ArgOk E b)
    (hs : a = star ∨ b = star) : otUnionArgs S a b t = .ok (a, b) := by
  simp only [otUnionArgs, isSet_eq_false (ha.name_ok h), isSet_eq_false (hb.name_ok h)]
  by_cases hab : a = b
  · simp [hab]
  · simp [hab, hs]

def UnionSplitMeets (S : Sds) (g : CudGraph) (a b t : Sds) : Prop :=
  ∃ a' b' g1 g12 g2 g21, otUnionArgs S a b t = .ok (a', b') ∧ unionProc g a b = .ok g1 ∧
    splitProc g1 t = .ok g12 ∧ splitProc g t = .ok g2 ∧ unionProc g2 a' b' = .ok g21 ∧
    g12.partition = g21.partition

theorem unionSplitMeets_iff
    (hot : otUnionArgs S a b t = .ok (a', b')) (h1 : unionProc g a b = .ok g1)
    (h12 : splitProc g1 t = .ok g12) (h2 : splitProc g t = .ok g2)
    (h21 : unionProc g2 a' b' = .ok g21) :
    UnionSplitMeets S g a b t ↔ g12.partition = g21.partition := by
  constructor
  · rintro ⟨a1, b1, k1, k12, k2, k21, hot', h1', h12', h2', h21', heq⟩
    rw [hot, Except.ok.injEq, Prod.mk.injEq] at hot'
    obtain ⟨rfl, rfl⟩ := hot'
    rw [h1, Except.ok.injEq] at h1'
    subst h1'
    rw [h12, Except.ok.injEq] at h12'
    rw [h2, Except.ok.injEq] at h2'
    subst h2'
    rw [h21, Except.ok.injEq] at h21'
    rw [h12', h21', heq]
  · exact fun heq => ⟨a', b', g1, g12, g2, g21, hot, h1, h12, h2, h21, heq⟩

theorem unionSplit_iff (hS : WellFormed S) (hE : ∀ x, x ∈ elementsOf S ↔ x ∈ E)
    (hg : GraphShows E g (denote S)) (hab : checkUnionArgv g a b = .ok none)
    (ht : checkSplitArgv g t = .ok none) : UnionSplitMeets S g a b t ↔ UnionSplitWhen S a b t := by
  have hcontent : ∀ {X : List Sds}, OperandOk E (denote S) X → InContent S X := fun h =>
    ⟨h.ne, h.nodup, fun x hx => (hE x).mpr (h.mem x hx), h.rel⟩
  have hTE := hg.operand_of_checkSplitArgv ht
  have hsplit : ∀ {g : CudGraph} {p : Setoid Sds}, GraphShows E g p → ∃ g', splitProc g t = .ok g' ∧
      GraphShows E g' ((splitOp t).act p) := fun h => by
    have := h.splitProc hTE.mem hTE.ne
    rwa [sdsjoin_sdssplit] at this
  rcases hg.operands_of_checkUnionArgv hab with ⟨hs, ha, hb⟩ | ⟨has, hbs, hXE, hYE⟩
  · -- a marker: the union does nothing on both ways
    obtain ⟨g2, h2, hg2⟩ := hsplit hg
    have hE' : ∀ {x}, ArgOk E x → ArgOk (elementsOf S) x := fun h => h.imp_left (hE _).mpr
    rw [unionSplitMeets_iff (otUnionArgs_star hS.shows (hE' ha) (hE' hb) hs) (unionProc_star hs) h2 h2
      (unionProc_star hs)]
    exact iff_of_true rfl (hs.elim .inl fun h => .inr (.inl h))
  have hX := hcontent hXE
  have hY := hcontent hYE
  have hT := hcontent hTE
  have hXs : sdsjoin (sdssplit a ',') ',' ≠ star := by rwa [sdsjoin_sdssplit]
  have hYs : sdsjoin (sdssplit b ',') ',' ≠ star := by rwa [sdsjoin_sdssplit]
  by_cases hfit : (1 < (sdssplit a ',').length ∨ 1 < (sdssplit b ',').length) →
      1 < (sdssplit t ',').length → (first (sdssplit t ',')).length < 10
  · obtain ⟨g1, h1, hg1⟩ := hg.unionProc hXE.mem hYE.mem hX.ne hY.ne hXs hYs
    obtain ⟨g12, h12, hg12⟩ := hsplit hg1
    obtain ⟨g2, h2, hg2⟩ := hsplit hg
    obtain ⟨a', b', g21, hot, h21, hg21⟩ := hg2.unionProc_moved hS hE hX hY hT hXs hYs hfit
    simp only [sdsjoin_sdssplit] at h1 hot
    rw [unionSplitMeets_iff hot h1 h12 h2 h21, hg12.partition, hg21.partition,
      unionAct_of_operands hX hY]
    by_cases hts : t = star
    · subst hts
      have hTs : sdssplit star ',' = [star] := rfl
      rw [act_split_star, act_split_star, hTs,
        movedAct_star hS hX hY hT (fun h => has ?_) fun h => hbs ?_]
      · exact iff_of_true rfl (.inr (.inr (.inl rfl)))
      · rw [← sdsjoin_sdssplit a ',', h, sdsjoin_singleton]
      · rw [← sdsjoin_sdssplit b ',', h, sdsjoin_singleton]
    have hact : ∀ p, (splitOp t).act p = cut p {x | x ∈ sdssplit t ','} := fun p => by
      simp [UfsOp.act, splitOp, hts, operand]
    rw [hact, hact, square_iff hS hX hY hT hfit]
    simp [UnionSplitWhen, has, hbs, hts]
  have hname : ∀ {X : List Sds}, InContent S X → ∀ x ∈ X, NameOk x := fun h x hx =>
    hS.shows.name_ok (h.mem x hx)
  have hlong : (1 < (sdssplit a ',').length ∨ 1 < (sdssplit b ',').length) ∧
      1 < (sdssplit t ',').length ∧ ¬ (first (sdssplit t ',')).length < 10 := by
    rwa [Classical.not_imp, Classical.not_imp] at hfit
  have hot := otUnionArgs_overflow (S := S) hX.ne (hname hX) hY.ne (hname hY) hT.ne (hname hT)
    hlong.1 hlong.2
  simp only [sdsjoin_sdssplit] at hot
  have hts : t ≠ star := fun h => by
    rw [h] at hlong
    exact absurd hlong.2.1 (by decide)
  refine iff_of_false ?_ ?_
  · rintro ⟨a', b', _, _, _, _, hot', -⟩
    rw [hot] at hot'
    cases hot'
  rintro (h | h | h | h)
  · exact has h
  · exact hbs h
  · exact hts h
  · exact hfit h.1

theorem OperandOk.mono (h : OperandOk E p X) (hpr : p ≤ r) : OperandOk E r X :=
  ⟨h.ne, h.nodup, h.mem, fun x hx y hy => hpr (h.rel x hx y hy)⟩

theorem GraphShows.union_accepted (hg : GraphShows E g p)
    (hab : checkUnionArgv g a b = .ok none) : ∃ U : Set Sds, ∀ g' r, p ≤ r → GraphShows E g' r →
      ∃ g'', UfsRedis.execOp g' (unionOp a b) = .ok g'' ∧ GraphShows E g'' (glue r U) := by
  rcases hg.operands_of_checkUnionArgv hab with ⟨hs, -⟩ | ⟨has, hbs, hX, hY⟩
  · exact ⟨∅, fun g' r _ hg' => ⟨g', unionProc_star hs, by rwa [glue_empty]⟩⟩
  refine ⟨{x | x ∈ sdssplit a ',' ++ sdssplit b ','}, fun g' r hpr hg' => ?_⟩
  obtain ⟨g'', hu, hg''⟩ := hg'.unionProc hX.mem hY.mem hX.ne hY.ne
    (by rwa [sdsjoin_sdssplit]) (by rwa [sdsjoin_sdssplit])
  rw [unionAct_of_operands (hX.mono hpr) (hY.mono hpr)] at hg''
  rw [sdsjoin_sdssplit, sdsjoin_sdssplit] at hu
  exact ⟨g'', hu, hg''⟩

theorem GraphShows.split_accepted (hg : GraphShows E g p)
    (ht : checkSplitArgv g t = .ok none) (g' : CudGraph) (r : Setoid Sds)
    (hg' : GraphShows E g' r) :
    ∃ g'', UfsRedis.execOp g' (splitOp t) = .ok g'' ∧ GraphShows E g'' ((splitOp t).act r) := by
  have hT := hg.operand_of_checkSplitArgv ht
  have := hg'.splitProc hT.mem hT.ne
  rwa [sdsjoin_sdssplit] at this

theorem otUfs_union_split : otUfs S (unionOp a b) (splitOp t) .union =
    otUnionArgs S a b t >>= fun r => .ok (unionOp r.1 r.2, splitOp t) := rfl

theorem otUfs_split_union : otUfs S (splitOp t) (unionOp a b) .union =
    otUnionArgs S a b t >>= fun r => .ok (splitOp t, unionOp r.1 r.2) := rfl

theorem converges_union_split :
    Converges S g (unionOp a b) (splitOp t) ↔ UnionSplitMeets S g a b t := by
  constructor
  · rintro ⟨e1, e2, g1, g12, g2, g21, hot, h1, h12, h2, h21, heq⟩
    rw [otUfs_union_split, bind_eq_ok] at hot
    obtain ⟨⟨a', b'⟩, hargs, hot⟩ := hot
    cases hot
    exact ⟨a', b', g1, g12, g2, g21, hargs, h1, h12, h2, h21, heq⟩
  rintro ⟨a', b', g1, g12, g2, g21, hargs, h1, h12, h2, h21, heq⟩
  refine ⟨unionOp a' b', splitOp t, g1, g12, g2, g21, ?_, h1, h12, h2, h21, heq⟩
  rw [otUfs_union_split, hargs, ok_bind]

theorem converges_split_union :
    Converges S g (splitOp t) (unionOp a b) ↔ UnionSplitMeets S g a b t := by
  constructor
  · rintro ⟨e1, e2, g1, g12, g2, g21, hot, h1, h12, h2, h21, heq⟩
    rw [otUfs_split_union, bind_eq_ok] at hot
    obtain ⟨⟨a', b'⟩, hargs, hot⟩ := hot
    cases hot
    exact ⟨a', b', g2, g21, g1, g12, hargs, h2, h21, h1, h12, heq.symm⟩
  rintro ⟨a', b', g1, g12, g2, g21, hargs, h1, h12, h2, h21, heq⟩
  refine ⟨splitOp t, unionOp a' b', g2, g21, g1, g12, ?_, h2, h21, h1, h12, heq.symm⟩
  rw [otUfs_split_union, hargs, ok_bind]

/-- **TP1 of `otUfs` with `OT_UNION` for operations with sets.** For accepted operations both orders
can be executed on the graph and give the same partition iff `ConvergesWhen` holds. -/
theorem converges_iff (hS : WellFormed S) (hE : (elementsOf S).Perm E)
    (hg : GraphShows E g (denote S)) {op1 op2 : UfsOp} (h1 : Accepted g op1) (h2 : Accepted g op2) :
    Converges S g op1 op2 ↔ ConvergesWhen S op1 op2 := by
  cases h1 with
  | @union a b hab =>
    cases h2 with
    | @union c d hcd =>
      refine iff_of_true ?_ trivial
      obtain ⟨U, hU⟩ := hg.union_accepted hab
      obtain ⟨W, hW⟩ := hg.union_accepted hcd
      obtain ⟨g1, h1, hg1⟩ := hU g _ le_rfl hg
      obtain ⟨g12, h12, hg12⟩ := hW g1 _ le_glue hg1
      obtain ⟨g2, h2, hg2⟩ := hW g _ le_rfl hg
      obtain ⟨g21, h21, hg21⟩ := hU g2 _ le_glue hg2
      refine ⟨_, _, g1, g12, g2, g21, rfl, h1, h12, h2, h21, ?_⟩
      rw [hg12.partition, hg21.partition, glue_comm]
    | split ht =>
      rw [converges_union_split]
      exact unionSplit_iff hS (fun x => hE.mem_iff) hg hab ht
  | @split s hs =>
    cases h2 with
    | union hab =>
      rw [converges_split_union]
      exact unionSplit_iff hS (fun x => hE.mem_iff) hg hab hs
    | @split t ht =>
      refine iff_of_true ?_ trivial
      obtain ⟨g1, h1, hg1⟩ := hg.split_accepted hs g _ hg
      obtain ⟨g12, h12, hg12⟩ := hg.split_accepted ht g1 _ hg1
      obtain ⟨g2, h2, hg2⟩ := hg.split_accepted ht g _ hg
      obtain ⟨g21, h21, hg21⟩ := hg.split_accepted hs g2 _ hg2
      refine ⟨_, _, g1, g12, g2, g21, rfl, h1, h12, h2, h21, ?_⟩
      obtain ⟨T, hT⟩ := exists_act_split s
      obtain ⟨T', hT'⟩ := exists_act_split t
      rw [hg12.partition, hg21.partition, hT, hT', hT, hT', cut_comm]

end

/-- In `a,b,c/y`, `union a y` and `split b,c` meet. -/
theorem converges_iff_union_split : ∃ g, uinitGraph ['k'] "a,b,c/y".toList = .ok g ∧
    Converges "a,b,c/y".toList g (unionOp ['a'] ['y']) (splitOp ['b', ',', 'c']) := by
  refine exists_ok_imp (P := fun g => checkUnionArgv g ['a'] ['y'] = .ok none ∧
    checkSplitArgv g ['b', ',', 'c'] = .ok none) (by decide +kernel) ?_
  rintro g hinit ⟨hab, ht⟩
  obtain ⟨g', hinit', hg, -⟩ := uinitGraph_spec ['k'] (S := "a,b,c/y".toList) (by decide)
  rw [hinit, Except.ok.injEq] at hinit'
  subst hinit'
  refine (converges_iff (by decide) (.refl _) hg (.union hab) (.split ht)).mpr ?_
  show UnionSplitWhen "a,b,c/y".toList ['a'] ['y'] ['b', ',', 'c']
  decide

theorem CudGraph.not_partition (f : Sds → Bool)
    (h : ∀ u < g.dlist.length, ∀ v ∈ g.adj u, f (g.name u) = f (g.name v)) (hxy : f x ≠ f y) :
    ¬ g.partition x y := by
  have hle : g.partition ≤ Setoid.ker f := by
    refine Setoid.eqvGen_le ?_
    rintro x y ⟨u, v, hu, -, huv | huv, rfl, rfl⟩
    · rw [huv]
    · exact h u hu v huv
  exact fun hp => hxy (hle hp)

/-- In `a,b,c/y`, `union a y` is not transformed against `split a,b`: after the union and then the
split, `y` is with `c`; after the split and then the union, with `a` and `b`. -/
theorem set_operations_diverge : ∃ g, uinitGraph ['k'] "a,b,c/y".toList = .ok g ∧
    checkUnionArgv g ['a'] ['y'] = .ok none ∧ checkSplitArgv g ['a', ',', 'b'] = .ok none ∧
    otUfs "a,b,c/y".toList (unionOp ['a'] ['y']) (splitOp ['a', ',', 'b']) .union =
      .ok (unionOp ['a'] ['y'], splitOp ['a', ',', 'b']) ∧
    ∃ g1, execOp g (unionOp ['a'] ['y']) = .ok g1 ∧
      ∃ g12, execOp g1 (splitOp ['a', ',', 'b']) = .ok g12 ∧
        ∃ g2, execOp g (splitOp ['a', ',', 'b']) = .ok g2 ∧
          ∃ g21, execOp g2 (unionOp ['a'] ['y']) = .ok g21 ∧ g12.partition ≠ g21.partition := by
  refine exists_ok_imp (P := fun g => checkUnionArgv g ['a'] ['y'] = .ok none ∧
    checkSplitArgv g ['a', ',', 'b'] = .ok none ∧
    (∃ g1, execOp g (unionOp ['a'] ['y']) = .ok g1 ∧
      ∃ g12, execOp g1 (splitOp ['a', ',', 'b']) = .ok g12 ∧
        ∀ u < g12.dlist.length, ∀ v ∈ g12.adj u,
          decide (g12.name u ∈ [['a'], ['b']]) = decide (g12.name v ∈ [['a'], ['b']])) ∧
    ∃ g2, execOp g (splitOp ['a', ',', 'b']) = .ok g2 ∧
      ∃ g21, execOp g2 (unionOp ['a'] ['y']) = .ok g21 ∧ g21.dlist.length = 4 ∧
        g21.name 0 = ['a'] ∧ g21.name 3 = ['y'] ∧ 3 ∈ g21.adj 0) (by decide +kernel) ?_
  rintro g - ⟨hab, ht, ⟨g1, h1, g12, h12, hsep⟩, g2, h2, g21, h21, hlen, hn0, hn3, hadj⟩
  refine ⟨hab, ht, by decide +kernel, g1, h1, g12, h12, g2, h2, g21, h21, fun heq => ?_⟩
  have hay : g21.partition ['a'] ['y'] := by
    rw [← hn0, ← hn3]
    exact partition_of_mem_adj (by omega) (by omega) hadj
  rw [← heq] at hay
  exact CudGraph.not_partition (fun x => x ∈ [['a'], ['b']]) hsep (by decide) hay

end UfsRedis

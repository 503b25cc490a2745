import UfsRedis.Ot.SetTp1

/-!
# Transformation of splits

With `OT_SPLIT`, `otUfs` leaves unions as they are and changes splits: against a union, a split of
`X` becomes a split of the rest of its class, or nothing (`splitAfter`); against another split, it
becomes a split of what the other has left, or both splits become one union.

* `SplitOk E p op`: the operations, in a state with the elements `E` and the partition `p`;
* `Square`: the transformed operations are such operations in the states they are applied to, and
  the two orders meet;
* `otSplit_tp1`: `otUfs` with `OT_SPLIT` gives such a square for every two operations.
-/

namespace UfsRedis

open List Lib Partition

/-- A union of two elements, a split of names of one class, or `split *`. -/
inductive SplitOk (E : List Sds) (p : Setoid Sds) : UfsOp → Prop
  | union {x y : Sds} (hx : x ∈ E) (hy : y ∈ E) : SplitOk E p (unionOp x y)
  | skip : SplitOk E p (splitOp star)
  | split {X : List Sds} (hX : OperandOk E p X) : SplitOk E p (splitOp (sdsjoin X ','))

/-- The operations `op1'` after `op2` and `op2'` after `op1`. -/
structure Square (E : List Sds) (p : Setoid Sds) (op1 op2 op1' op2' : UfsOp) : Prop where
  ok1 : SplitOk E (op2.act p) op1'
  ok2 : SplitOk E (op1.act p) op2'
  comm : op2'.act (op1.act p) = op1'.act (op2.act p)

theorem Square.symm (h : Square E p op1 op2 op1' op2') : Square E p op2 op1 op2' op1' :=
  ⟨h.ok2, h.ok1, h.comm.symm⟩

/-! ## Operations on a content -/

section

variable {E X : List Sds} {p q : Setoid Sds}

theorem join_ne_star (hstar : star ∉ E) (hX : ∀ x ∈ X, x ∈ E)
    (hn : ∀ x ∈ X, NameOk x) : sdsjoin X ',' ≠ star := by
  intro h
  have hmem : star ∈ X := by
    rw [← split_operand hn, h]
    decide
  exact hstar (hX star hmem)

theorem act_splitSet (hn : ∀ x ∈ X, NameOk x) (hs : sdsjoin X ',' ≠ star) :
    (splitOp (sdsjoin X ',')).act p = cut p {x | x ∈ X} := by
  simp only [UfsOp.act, splitOp, if_neg hs, operand_join hn]

theorem OperandOk.of_le (hX : OperandOk E p X) (h : ∀ x ∈ X, ∀ y ∈ X, p x y → q x y) :
    OperandOk E q X :=
  ⟨hX.ne, hX.nodup, hX.mem, fun x hx y hy => h x hx y hy (hX.rel x hx y hy)⟩

theorem SplitOk.fromState (cs : Classes) (hE : cs.elements.Perm E) (hstar : star ∉ E)
    (hfit : ∀ x ∈ E, x.length < 10) (h : SplitOk E cs.partition op) :
    ∃ cs' : Classes, updateVerticeUfsFromState cs.render op cs.render.length = .ok cs'.render ∧
      cs'.elements.Perm E ∧ cs'.partition = op.act cs.partition := by
  have hname : ∀ {x}, x ∈ E → NameOk x := fun hx => cs.name_ok (hE.mem_iff.mpr hx)
  have hne : ∀ {x}, x ∈ E → x ≠ star := fun hx h => hstar (h ▸ hx)
  cases h with
  | @union x y hx hy =>
    obtain ⟨cs', hu, hperm, hp⟩ := fromState_union cs (firstName_of_name (hname hx).2.1)
      (firstName_of_name (hname hy).2.1) (hE.mem_iff.mpr hx) (hE.mem_iff.mpr hy) (hne hx) (hne hy)
    exact ⟨cs', hu, hperm.trans hE, by rw [hp, act_union (hname hx) (hname hy) (hne hx) (hne hy)]⟩
  | skip => exact ⟨cs, fromState_split_star cs, hE, act_split_star.symm⟩
  | @split X hX =>
    have hn : ∀ x ∈ X, NameOk x := fun x hx => hname (hX.mem x hx)
    have hs := join_ne_star hstar hX.mem hn
    have hfirst : firstName (sdsjoin X ',') = .ok (first X) := by
      rw [firstName_operand hX.ne hn, if_neg fun h => h.2 (hfit _ (hX.mem _ (first_mem hX.ne)))]
    obtain ⟨c, hc, hxc⟩ := mem_flatten.mp (hE.mem_iff.mpr (hX.mem _ (first_mem hX.ne)))
    have hsub : ∀ x ∈ X, x ∈ c := fun x hx =>
      (cs.partition_iff_mem hc hxc).mp (hX.rel x hx _ (first_mem hX.ne))
    rw [act_splitSet hn hs]
    match X, hX.ne with
    | t :: T, _ =>
      obtain ⟨cs', hu, hperm, hp⟩ := fromState_split cs hc hX.nodup hsub hfirst hs
      exact ⟨cs', hu, hperm.trans hE, hp⟩

end

variable {S x y : Sds}

/-! ## The scanners -/

section

variable {X Y T : List Sds}

/-- What is left of the class of `T`, as the operand of a split. -/
def restArg (S : Sds) (T : List Sds) : Sds :=
  if restOf S T = [] then star else sdsjoin (restOf S T) ','

theorem cpltClass_rest (hS : WellFormed S) (hT : InContent S T) (hfit : (first T).length < 10) :
    cpltClass S (some (sdsjoin T ',')) .split = .ok (restArg S T) := by
  obtain ⟨cs, rfl, -⟩ := hS.exists_classes
  obtain ⟨hc, -⟩ := classIn_mem (hT.mem _ (first_mem hT.ne))
  have hsub := hT.mem_classIn hS
  have hnil : restOf cs.render T = [] ↔ ∀ x ∈ classIn cs.render (first T), x ∈ T := by
    rw [restOf, filter_eq_nil_iff]
    simp
  rw [cs.classesOf_render] at hc
  obtain ⟨t, T, rfl⟩ := exists_cons_of_ne_nil hT.ne
  rw [cpltClass_render .split hc hT.nodup hsub (.inr hfit), restArg, cpltResult]
  by_cases h : restOf cs.render (t :: T) = []
  · rw [if_pos h, if_pos (hnil.mp h)]
  rw [if_neg h, if_neg (mt hnil.mpr h)]
  rfl

theorem sameClass_content (hS : WellFormed S) (hx : x ∈ elementsOf S) (hy : y ∈ elementsOf S) :
    ∃ b, sameClass S x y = .ok b ∧ (b = true ↔ denote S x y) := by
  obtain ⟨cs, rfl, -⟩ := hS.exists_classes
  rw [cs.denote_render]
  rw [cs.elementsOf_render] at hx hy
  exact sameClass_render cs hx hy

theorem findstr_name (hX : X ≠ []) (hXn : ∀ x ∈ X, NameOk x) (hx : NameOk x) :
    findstr (sdsjoin X ',') x = .ok (decide (x ∈ X)) := by
  have h := findstr_operand (T := [x]) hX hXn (by simp) (by simpa using hx) (by simp)
  rwa [sdsjoin_singleton] at h

theorem setMinus_eq (hY : Y ≠ []) (hXn : ∀ x ∈ X, NameOk x) (hYn : ∀ x ∈ Y, NameOk x) :
    setMinus X (sdsjoin Y ',') = .ok (if X.filter (· ∉ Y) = [] then none
      else some (sdsjoin (X.filter (· ∉ Y)) ',')) := by
  have hfilter := filterM_ok (l := X) (g := fun x => decide (x ∉ Y))
    (f := fun e => do .ok !(← findstr (sdsjoin Y ',') e)) fun x hx => by
      rw [findstr_name hY hYn (hXn x hx), ok_bind, decide_not]
  rw [setMinus, hfilter, ok_bind]

end

/-! ## A union and a split -/

section

variable {X : List Sds}

theorem act_union_mem (hS : WellFormed S) (hstar : star ∉ elementsOf S) (hx : x ∈ elementsOf S)
    (hy : y ∈ elementsOf S) : (unionOp x y).act q = glue q {x, y} :=
  act_union (hS.shows.name_ok hx) (hS.shows.name_ok hy) (ne_of_mem_of_not_mem hx hstar)
    (ne_of_mem_of_not_mem hy hstar)

open Classical in
/-- The operand of `split X` after `union x y`. -/
noncomputable def splitAfter (S : Sds) (X : List Sds) (x y : Sds) : Sds :=
  if denote S x y then (if x ∈ X ↔ y ∈ X then sdsjoin X ',' else star)
  else if x ∈ X ∨ y ∈ X then restArg S X else sdsjoin X ','

variable (hS : WellFormed S)
include hS

theorem otSplitArg_eq (hstar : star ∉ elementsOf S) (hX : InContent S X)
    (hfit : (first X).length < 10) (hx : x ∈ elementsOf S) (hy : y ∈ elementsOf S) :
    otSplitArg S x y (sdsjoin X ',') = .ok (splitAfter S X x y) := by
  have hXn := hX.nameOk hS
  have hs := join_ne_star hstar hX.mem hXn
  obtain ⟨b, hb, hbp⟩ := sameClass_content hS hx hy
  have hcplt := cpltClass_rest hS hX hfit
  rw [otSplitArg, splitAfter]
  by_cases hxy : x = y
  · subst hxy
    simp
  rw [if_neg hxy, isSet_join hX.ne hXn]
  by_cases hX1 : 1 < X.length
  · simp only [hX1, decide_true, if_true, hb, findstr_name hX.ne hXn (hS.shows.name_ok hx),
      findstr_name hX.ne hXn (hS.shows.name_ok hy), hcplt, ok_bind]
    by_cases hp : denote S x y
    · rw [if_pos (hbp.mpr hp), if_pos hp]
      by_cases h1 : x ∈ X <;> by_cases h2 : y ∈ X <;> simp [h1, h2]
    rw [if_neg (mt hbp.mp hp), if_neg hp]
    by_cases h1 : x ∈ X <;> by_cases h2 : y ∈ X <;> simp [h1, h2]
  obtain ⟨s, rfl⟩ := exists_singleton hX.ne hX1
  rw [sdsjoin_singleton] at hs hcplt ⊢
  simp only [hX1, decide_false, Bool.false_eq_true, if_false, hs, hb, ok_bind, hcplt, mem_singleton]
  by_cases hp : denote S x y
  · rw [if_pos (hbp.mpr hp), if_pos hp]
    by_cases h1 : x = s
    · have h2 : y ≠ s := fun h => hxy (h1.trans h.symm)
      simp [h1, h2]
    · by_cases h2 : y = s <;> simp [h1, h2]
  rw [if_neg (mt hbp.mp hp), if_neg hp]
  by_cases h : x = s ∨ y = s <;> simp [h]

theorem cut_rest (hX : InContent S X) (hq : q ≤ denote S) :
    cut q {x | x ∈ restOf S X} = cut q {x | x ∈ X} := by
  refine cut_congr fun u v huv => ?_
  simp only [Set.mem_ofPred_eq, mem_restOf hS hX]
  have hrel : ∀ {u}, u ∈ X → denote S u (first X) := fun hu => hX.rel _ hu _ (first_mem hX.ne)
  have hiff : denote S u (first X) ↔ denote S v (first X) :=
    ⟨(denote S).trans' ((denote S).symm' (hq huv)), (denote S).trans' (hq huv)⟩
  tauto

theorem act_rest (hstar : star ∉ elementsOf S) (hX : InContent S X)
    (q : Setoid Sds) : (splitOp (restArg S X)).act q = cut q {x | x ∈ restOf S X} := by
  rw [restArg]
  split
  · next h => rw [act_split_star, h, cut_eq_self (by simp)]
  have hmem : ∀ x ∈ restOf S X, x ∈ elementsOf S := fun x hx =>
    mem_elements_of_denote hS (hX.mem _ (first_mem hX.ne)) ((mem_restOf hS hX).mp hx).1
  have hn : ∀ x ∈ restOf S X, NameOk x := fun x hx => hS.shows.name_ok (hmem x hx)
  rw [act_splitSet hn (join_ne_star hstar hmem hn)]

theorem splitOk_rest (hX : InContent S X) (hq : ∀ u v, denote S u v → u ∉ X → v ∉ X → q u v) :
    SplitOk (elementsOf S) q (splitOp (restArg S X)) := by
  have hfirst := hX.mem _ (first_mem hX.ne)
  rw [restArg]
  split
  · exact .skip
  next h =>
  refine .split ⟨h, ?_, fun x hx => ?_, fun x hx y hy => ?_⟩
  · obtain ⟨cs, rfl, -⟩ := hS.exists_classes
    obtain ⟨hc, -⟩ := classIn_mem hfirst
    rw [cs.classesOf_render] at hc
    exact (cs.class_nodup hc).filter _
  · exact mem_elements_of_denote hS hfirst ((mem_restOf hS hX).mp hx).1
  obtain ⟨hpx, hxX⟩ := (mem_restOf hS hX).mp hx
  obtain ⟨hpy, hyX⟩ := (mem_restOf hS hX).mp hy
  exact hq x y ((denote S).trans' hpx ((denote S).symm' hpy)) hxX hyX

theorem square_union_split (hstar : star ∉ elementsOf S) (hX : InContent S X)
    (hx : x ∈ elementsOf S) (hy : y ∈ elementsOf S) :
    Square (elementsOf S) (denote S) (unionOp x y) (splitOp (sdsjoin X ','))
      (unionOp x y) (splitOp (splitAfter S X x y)) := by
  have hXn := hX.nameOk hS
  have hu : ∀ q, (unionOp x y).act q = glue q {x, y} := fun q =>
    act_union_mem hS hstar hx hy
  have hs : ∀ q, (splitOp (sdsjoin X ',')).act q = cut q {x | x ∈ X} := fun q =>
    act_splitSet hXn (join_ne_star hstar hX.mem hXn)
  have hkeep : SplitOk (elementsOf S) (glue (denote S) {x, y}) (splitOp (sdsjoin X ',')) :=
    .split (hX.of_le fun _ _ _ _ h => le_glue h)
  have hXrel : ∀ u ∈ {x | x ∈ X}, ∀ v ∈ {x | x ∈ X}, denote S u v := hX.rel
  refine ⟨.union hx hy, ?_, ?_⟩ <;> rw [hu, splitAfter]
  · split
    · split
      · exact hkeep
      · exact .skip
    split
    · exact splitOk_rest hS hX fun u v h _ _ => le_glue h
    · exact hkeep
  rw [hs, hu]
  split
  · next hp =>
    have hglue : glue (denote S) {x, y} = denote S := by
      refine glue_eq_self ?_
      rintro u (rfl | rfl) v (rfl | rfl)
      · exact (denote S).refl' _
      · exact hp
      · exact (denote S).symm' hp
      · exact (denote S).refl' _
    rw [hglue]
    split
    · next hiff =>
      -- both operands are on one side of the cut
      rw [hs, glue_eq_self]
      rintro u (rfl | rfl) v (rfl | rfl)
      · exact Setoid.refl' _ _
      · exact cut_iff.mpr ⟨hp, hiff⟩
      · exact cut_iff.mpr ⟨(denote S).symm' hp, hiff.symm⟩
      · exact Setoid.refl' _ _
    next hiff =>
    rw [act_split_star]
    by_cases hxX : x ∈ X
    · have hyX : y ∉ X := fun h => hiff (iff_of_true hxX h)
      exact (glue_cut hXrel hxX hyX hp).symm
    have hyX : y ∈ X := by
      by_contra h
      exact hiff (iff_of_false hxX h)
    rw [Set.pair_comm]
    exact (glue_cut hXrel hyX hxX ((denote S).symm' hp)).symm
  next hp =>
  split
  · next hmem =>
    rw [act_rest hS hstar hX, ← cut_rest hS hX le_rfl]
    refine cut_glue ?_ ?_ fun _ _ => Iff.rfl
    · intro u hu v hv
      exact (denote S).trans' ((mem_restOf hS hX).mp hu).1
        ((denote S).symm' ((mem_restOf hS hX).mp hv).1)
    -- the other operand is not in the class of `X`
    have hrel : ∀ {u}, u ∈ X → denote S u (first X) := fun hu =>
      hX.rel _ hu _ (first_mem hX.ne)
    rintro u (rfl | rfl) hrest
    · obtain ⟨hpu, huX⟩ := (mem_restOf hS hX).mp hrest
      exact hp ((denote S).trans' hpu ((denote S).symm' (hrel (hmem.resolve_left huX))))
    obtain ⟨hpu, huX⟩ := (mem_restOf hS hX).mp hrest
    exact hp ((denote S).trans' (hrel (hmem.resolve_right huX)) ((denote S).symm' hpu))
  next hmem =>
  rw [hs]
  refine cut_glue hXrel ?_ fun _ _ => Iff.rfl
  rintro u (rfl | rfl) hu
  · exact hmem (.inl hu)
  · exact hmem (.inr hu)

end

/-! ## Two splits -/

section

variable {X Y : List Sds} {x : Sds} (hS : WellFormed S) (hstar : star ∉ elementsOf S)
  (hX : InContent S X) (hY : InContent S Y)

/-- The square of the splits of two sets. -/
abbrev SplitSquare (S : Sds) (X Y : List Sds) : UfsOp → UfsOp → Prop :=
  Square (elementsOf S) (denote S) (splitOp (sdsjoin X ',')) (splitOp (sdsjoin Y ','))

include hS hstar in
theorem act_inContent (hX : InContent S X) (q : Setoid Sds) :
    (splitOp (sdsjoin X ',')).act q = cut q {x | x ∈ X} := by
  have hn := hX.nameOk hS
  exact act_splitSet hn (join_ne_star hstar hX.mem hn)

include hS hstar hX hY

theorem square_keep (hXY : ∀ u ∈ Y, ∀ v ∈ Y, u ∈ X ↔ v ∈ X)
    (hYX : ∀ u ∈ X, ∀ v ∈ X, u ∈ Y ↔ v ∈ Y) :
    SplitSquare S X Y (splitOp (sdsjoin X ',')) (splitOp (sdsjoin Y ',')) := by
  have hactX := act_inContent hS hstar hX
  have hactY := act_inContent hS hstar hY
  refine ⟨?_, ?_, by rw [hactX, hactY, hactY, hactX, cut_comm]⟩
  · rw [hactY]
    exact .split (hX.of_le fun u hu v hv h => cut_iff.mpr ⟨h, hYX u hu v hv⟩)
  rw [hactX]
  exact .split (hY.of_le fun u hu v hv h => cut_iff.mpr ⟨h, hXY u hu v hv⟩)

/-- The split of a part `X` of `Y` in which all of `X` stays together. The split of `Y` is changed
to the rest of its class. -/
theorem square_rest (hsub : ∀ u ∈ X, u ∈ Y) :
    SplitSquare S X Y (splitOp (sdsjoin X ',')) (splitOp (restArg S Y)) := by
  have hactX := act_inContent hS hstar hX
  have hactY := act_inContent hS hstar hY
  refine ⟨?_, ?_, ?_⟩
  · rw [hactY]
    exact .split (hX.of_le fun u hu v hv h =>
      cut_iff.mpr ⟨h, iff_of_true (hsub u hu) (hsub v hv)⟩)
  · rw [hactX]
    refine splitOk_rest hS hY fun u v h hu hv => cut_iff.mpr ⟨h, iff_of_false ?_ ?_⟩
    · exact fun huX => hu (hsub u huX)
    · exact fun hvX => hv (hsub v hvX)
  · rw [hactX, act_rest hS hstar hY, hactY, hactX, cut_rest hS hY cut_le, cut_comm]

theorem square_minus (hsub : ∀ u ∈ X, u ∈ Y) (hne : Y.filter (· ∉ X) ≠ []) :
    SplitSquare S X Y (splitOp (sdsjoin X ',')) (splitOp (sdsjoin (Y.filter (· ∉ X)) ',')) := by
  have hmem : ∀ u, u ∈ Y.filter (· ∉ X) ↔ u ∈ Y ∧ u ∉ X := fun u => by simp
  have hrest : InContent S (Y.filter (· ∉ X)) :=
    ⟨hne, hY.nodup.filter _, fun u hu => hY.mem u ((hmem u).mp hu).1,
      fun u hu v hv => hY.rel u ((hmem u).mp hu).1 v ((hmem v).mp hv).1⟩
  have hactX := act_inContent hS hstar hX
  have hactY := act_inContent hS hstar hY
  refine ⟨?_, ?_, ?_⟩
  · rw [hactY]
    exact .split (hX.of_le fun u hu v hv h =>
      cut_iff.mpr ⟨h, iff_of_true (hsub u hu) (hsub v hv)⟩)
  · rw [hactX]
    exact .split (hrest.of_le fun u hu v hv h =>
      cut_iff.mpr ⟨h, iff_of_false ((hmem u).mp hu).2 ((hmem v).mp hv).2⟩)
  rw [hactX, act_inContent hS hstar hrest, hactY, hactX]
  ext u v
  simp only [cut_iff, Set.mem_ofPred_eq, hmem]
  tauto

theorem square_equal (hiff : ∀ u, u ∈ X ↔ u ∈ Y) :
    SplitSquare S X Y (splitOp star) (splitOp star) := by
  refine ⟨.skip, .skip, ?_⟩
  rw [act_split_star, act_split_star, act_inContent hS hstar hX, act_inContent hS hstar hY]
  simp only [hiff]

theorem square_overlap (hc : c ∈ X ∧ c ∈ Y) (ha : a ∈ X ∧ a ∉ Y) (hb : b ∈ Y ∧ b ∉ X) :
    SplitSquare S X Y (unionOp a b) (unionOp a b) := by
  have haE := hX.mem a ha.1
  have hbE := hY.mem b hb.1
  have hab : denote S a b := (denote S).trans' (hX.rel a ha.1 c hc.1) (hY.rel c hc.2 b hb.1)
  refine ⟨.union haE hbE, .union haE hbE, ?_⟩
  rw [act_inContent hS hstar hX, act_inContent hS hstar hY,
    act_union_mem hS hstar haE hbE, act_union_mem hS hstar haE hbE]
  have hX' : glue (cut (denote S) {x | x ∈ X}) {a, b} = denote S := glue_cut hX.rel ha.1 hb.2 hab
  have hY' : glue (cut (denote S) {x | x ∈ Y}) {b, a} = denote S :=
    glue_cut hY.rel hb.1 ha.2 ((denote S).symm' hab)
  rw [hX', Set.pair_comm, hY']

theorem square_single (hX1 : ¬ 1 < X.length) : Square (elementsOf S) (denote S)
    (splitOp (sdsjoin X ',')) (splitOp (sdsjoin Y ',')) (splitOp (sdsjoin X ','))
    (splitOp (if first X ∈ Y then restArg S Y else sdsjoin Y ',')) := by
  obtain ⟨x, rfl⟩ := exists_singleton hX.ne hX1
  have hmem : ∀ {u}, u ∈ [x] → u = x := fun hu => mem_singleton.mp hu
  split
  · next h => exact square_rest hS hstar hX hY fun u hu => hmem hu ▸ h
  next h =>
  refine square_keep hS hstar hX hY (fun u hu v hv => ?_) fun u hu v hv => ?_
  · have hne : ∀ w ∈ Y, w ∉ [x] := fun w hw hwx => h (hmem hwx ▸ hw)
    exact iff_of_false (hne u hu) (hne v hv)
  · rw [hmem hu, hmem hv]

omit hS hstar in
theorem overlap_length : ((X.filter (· ∈ Y)).length = X.length ↔ ∀ x ∈ X, x ∈ Y) ∧
    ((X.filter (· ∈ Y)).length = Y.length ↔ ∀ y ∈ Y, y ∈ X) := by
  constructor
  · rw [length_filter_eq_length_iff]
    simp
  have hmem : ∀ y, y ∈ X.filter (· ∈ Y) ↔ y ∈ X ∧ y ∈ Y := fun y => by simp
  have hsub : X.filter (· ∈ Y) ⊆ Y := fun y hy => ((hmem y).mp hy).2
  have hnd := hX.nodup.filter (· ∈ Y)
  constructor
  · intro hlen y hy
    have hperm := (subperm_of_subset hnd hsub).perm_of_length_le (Nat.le_of_eq hlen.symm)
    exact ((hmem y).mp (hperm.mem_iff.mpr hy)).1
  intro h
  refine ((perm_ext_iff_of_nodup hnd hY.nodup).mpr fun y => ?_).length_eq
  rw [hmem]
  exact ⟨And.right, fun hy => ⟨h y hy, hy⟩⟩

omit hS hstar hY in
theorem mem_iff_of_length (hsub : ∀ x ∈ X, x ∈ Y) (hlen : X.length = Y.length) (u : Sds) :
    u ∈ X ↔ u ∈ Y :=
  ((subperm_of_subset hX.nodup hsub).perm_of_length_le (Nat.le_of_eq hlen.symm)).mem_iff

omit hS hstar in
theorem minus_ne_nil (hsub : ∀ x ∈ X, x ∈ Y) (hlen : X.length ≠ Y.length) :
    Y.filter (· ∉ X) ≠ [] := by
  intro hnil
  refine hlen ((perm_ext_iff_of_nodup hX.nodup hY.nodup).mpr fun u => ⟨hsub u, fun hu => ?_⟩
    ).length_eq
  have := filter_eq_nil_iff.mp hnil u hu
  simpa using this

theorem otSplits_sets (hX1 : 1 < X.length) (hY1 : 1 < Y.length) :
    ∃ op1' op2', otSplits S (sdsjoin X ',') (sdsjoin Y ',') = .ok (op1', op2') ∧
      SplitSquare S X Y op1' op2' := by
  have hXn := hX.nameOk hS
  have hYn := hY.nameOk hS
  have hover : X.filterM (fun e => findstr (sdsjoin Y ',') e) = .ok (X.filter (· ∈ Y)) :=
    filterM_ok fun x hx => findstr_name hY.ne hYn (hXn x hx)
  simp only [otSplits, isSet_join hX.ne hXn, isSet_join hY.ne hYn, hX1, hY1, decide_true,
    split_operand hXn, split_operand hYn, hover, setMinus_eq hY.ne hXn hYn,
    setMinus_eq hX.ne hYn hXn, ok_bind]
  obtain ⟨hlenX, hlenY⟩ := overlap_length hX hY
  split
  · rename_i hnone
    have hdisj : ∀ x ∈ X, x ∉ Y := fun x hx => by
      simpa using filter_eq_nil_iff.mp hnone x hx
    refine ⟨_, _, rfl, square_keep hS hstar hX hY (fun u hu v hv => ?_) fun u hu v hv => ?_⟩
    · exact iff_of_false (fun h => hdisj u h hu) fun h => hdisj v h hv
    · exact iff_of_false (hdisj u hu) (hdisj v hv)
  rename_i hnone
  split
  · rename_i hcontain
    split
    · rename_i hlen
      have hsub : ∀ x ∈ X, x ∈ Y := hlenX.mp (hcontain.elim id fun h => h.trans hlen.symm)
      exact ⟨_, _, rfl, square_equal hS hstar hX hY (mem_iff_of_length hX hsub hlen)⟩
    rename_i hlen
    by_cases hXY : (X.filter (· ∈ Y)).length = X.length
    · have hne := minus_ne_nil hX hY (hlenX.mp hXY) hlen
      rw [if_pos hXY, if_neg hne]
      exact ⟨_, _, rfl, square_minus hS hstar hX hY (hlenX.mp hXY) hne⟩
    have hsub := hlenY.mp (hcontain.resolve_left hXY)
    have hne := minus_ne_nil hY hX hsub (Ne.symm hlen)
    rw [if_neg hXY, if_neg hne]
    exact ⟨_, _, rfl, (square_minus hS hstar hY hX hsub hne).symm⟩
  rename_i hcontain
  -- each of the sets has a name that the other does not have
  obtain ⟨hnX, hnY⟩ := not_or.mp hcontain
  have hne1 : X.filter (· ∉ Y) ≠ [] := fun h => hnX (hlenX.mpr fun x hx => by
    simpa using filter_eq_nil_iff.mp h x hx)
  have hne2 : Y.filter (· ∉ X) ≠ [] := fun h => hnY (hlenY.mpr fun y hy => by
    simpa using filter_eq_nil_iff.mp h y hy)
  obtain ⟨c, hc⟩ := exists_mem_of_ne_nil _ hnone
  have hmem : ∀ {A B : List Sds} {u}, u ∈ A.filter (· ∉ B) → u ∈ A ∧ u ∉ B := fun h => by
    simpa using h
  rw [if_neg hne1, if_neg hne2, deref_some, ok_bind, deref_some, ok_bind,
    split_operand fun x hx => hXn x (mem_of_mem_filter hx),
    split_operand fun x hx => hYn x (mem_of_mem_filter hx)]
  exact ⟨_, _, rfl, square_overlap hS hstar hX hY (c := c) (by simpa using hc)
    (hmem (first_mem hne1)) (hmem (first_mem hne2))⟩

variable (hfit : ∀ x ∈ elementsOf S, x.length < 10)
include hfit

theorem otSplits_square :
    ∃ op1' op2', otSplits S (sdsjoin X ',') (sdsjoin Y ',') = .ok (op1', op2') ∧
      SplitSquare S X Y op1' op2' := by
  have hXn := hX.nameOk hS
  have hYn := hY.nameOk hS
  have hXs := join_ne_star hstar hX.mem hXn
  have hYs := join_ne_star hstar hY.mem hYn
  by_cases hX1 : 1 < X.length <;> by_cases hY1 : 1 < Y.length
  · exact otSplits_sets hS hstar hX hY hX1 hY1
  · obtain ⟨y, rfl⟩ := exists_singleton hY.ne hY1
    have hsq := (square_single hS hstar hY hX hY1).symm
    refine ⟨_, _, ?_, hsq⟩
    rw [sdsjoin_singleton] at hYs ⊢
    simp only [otSplits, isSet_join hX.ne hXn, isSet_eq_false (hYn y (by simp)), hX1, decide_true,
      hYs, if_false, findstr_name hX.ne hXn (hYn y (by simp)), ok_bind,
      cpltClass_rest hS hX (hfit _ (hX.mem _ (first_mem hX.ne))), first, headD_cons]
    by_cases h : y ∈ X <;> simp [h]
  · obtain ⟨x, rfl⟩ := exists_singleton hX.ne hX1
    have hsq := square_single hS hstar hX hY hX1
    refine ⟨_, _, ?_, hsq⟩
    rw [sdsjoin_singleton] at hXs ⊢
    simp only [otSplits, isSet_join hY.ne hYn, isSet_eq_false (hXn x (by simp)), hY1, decide_true,
      hXs, if_false, findstr_name hY.ne hYn (hXn x (by simp)), ok_bind,
      cpltClass_rest hS hY (hfit _ (hY.mem _ (first_mem hY.ne))), first, headD_cons]
    by_cases h : x ∈ Y <;> simp [h]
  obtain ⟨x, rfl⟩ := exists_singleton hX.ne hX1
  obtain ⟨y, rfl⟩ := exists_singleton hY.ne hY1
  refine ⟨_, _, ?_, square_keep hS hstar hX hY (fun u hu v hv => ?_) fun u hu v hv => ?_⟩
  · simp only [otSplits, isSet_join hX.ne hXn, isSet_join hY.ne hYn, hX1, hY1, decide_false]
  · rw [mem_singleton.mp hu, mem_singleton.mp hv]
  · rw [mem_singleton.mp hu, mem_singleton.mp hv]

end

/-! ## All pairs -/

section

variable {op1 op2 : UfsOp}

theorem square_skip (h : SplitOk (elementsOf S) (denote S) op) :
    Square (elementsOf S) (denote S) (splitOp star) op (splitOp star) op := by
  refine ⟨.skip, by rwa [act_split_star], ?_⟩
  rw [act_split_star, act_split_star]

variable (hS : WellFormed S) (hstar : star ∉ elementsOf S)
include hS hstar

theorem square_unions (hx : x ∈ elementsOf S) (hy : y ∈ elementsOf S)
    (hu : u ∈ elementsOf S) (hv : v ∈ elementsOf S) :
    Square (elementsOf S) (denote S) (unionOp x y) (unionOp u v) (unionOp x y) (unionOp u v) := by
  refine ⟨.union hx hy, .union hu hv, ?_⟩
  simp only [act_union_mem hS hstar hx hy, act_union_mem hS hstar hu hv]
  exact glue_comm

/-- **`otUfs` with `OT_SPLIT`** gives operations that meet. -/
theorem otUfs_square (hfit : ∀ x ∈ elementsOf S, x.length < 10)
    (h1 : SplitOk (elementsOf S) (denote S) op1) (h2 : SplitOk (elementsOf S) (denote S) op2) :
    ∃ op1' op2', otUfs S op1 op2 .split = .ok (op1', op2') ∧
      Square (elementsOf S) (denote S) op1 op2 op1' op2' := by
  have hstarArg : ∀ x y, otSplitArg S x y star = .ok star := by
    intro x y
    by_cases hxy : x = y <;> simp [otSplitArg, hxy, isSet, star]
  have harg : ∀ {X : List Sds} {x y}, InContent S X → x ∈ elementsOf S → y ∈ elementsOf S →
      otSplitArg S x y (sdsjoin X ',') = .ok (splitAfter S X x y) := fun hX hx hy =>
    otSplitArg_eq hS hstar hX (hfit _ (hX.mem _ (first_mem hX.ne))) hx hy
  cases h1 with
  | @union x y hx hy =>
    cases h2 with
    | union hu hv => exact ⟨_, _, rfl, square_unions hS hstar hx hy hu hv⟩
    | skip =>
      refine ⟨_, _, ?_, (square_skip (.union hx hy)).symm⟩
      simp [otUfs, unionOp, splitOp, hstarArg]
    | @split X hX =>
      refine ⟨_, _, ?_, square_union_split hS hstar hX hx hy⟩
      simp [otUfs, unionOp, splitOp, harg hX hx hy]
  | skip =>
    cases h2 with
    | @union x y hx hy =>
      refine ⟨_, _, ?_, square_skip (.union hx hy)⟩
      simp [otUfs, unionOp, splitOp, hstarArg]
    | skip => exact ⟨_, _, rfl, square_skip .skip⟩
    | @split Y hY =>
      refine ⟨_, _, ?_, square_skip (.split hY)⟩
      cases hset : isSet (sdsjoin Y ',') <;>
        simp [otUfs, splitOp, otSplits, hset, show isSet star = false from rfl]
  | @split X hX =>
    cases h2 with
    | @union x y hx hy =>
      refine ⟨_, _, ?_, (square_union_split hS hstar hX hx hy).symm⟩
      simp [otUfs, unionOp, splitOp, harg hX hx hy]
    | skip =>
      refine ⟨_, _, ?_, (square_skip (.split hX)).symm⟩
      cases hset : isSet (sdsjoin X ',') <;>
        simp [otUfs, splitOp, otSplits, hset, show isSet star = false from rfl]
    | @split Y hY => exact otSplits_square hS hstar hX hY hfit

/-- **TP1 of `otUfs` with `OT_SPLIT`**, for unions of single elements and splits of any part of a
class or of `*`: both orders return well-formed contents with the same names and the same
partition. -/
theorem otSplit_tp1 (hfit : ∀ x ∈ elementsOf S, x.length ≤ 9)
    (h1 : SplitOk (elementsOf S) (denote S) op1) (h2 : SplitOk (elementsOf S) (denote S) op2) :
    ∃ op1' op2' S1 S2 S12 S21, otUfs S op1 op2 .split = .ok (op1', op2') ∧
      updateVerticeUfsFromState S op1 S.length = .ok S1 ∧
      updateVerticeUfsFromState S1 op2' S1.length = .ok S12 ∧
      updateVerticeUfsFromState S op2 S.length = .ok S2 ∧
      updateVerticeUfsFromState S2 op1' S2.length = .ok S21 ∧
      WellFormed S12 ∧ WellFormed S21 ∧ (elementsOf S12).Perm (elementsOf S) ∧
      (elementsOf S21).Perm (elementsOf S) ∧ denote S12 = denote S21 := by
  have hfit' : ∀ x ∈ elementsOf S, x.length < 10 := fun x hx => Nat.lt_succ_of_le (hfit x hx)
  obtain ⟨op1', op2', hot, hsq⟩ := otUfs_square hS hstar hfit' h1 h2
  obtain ⟨cs, rfl, -⟩ := hS.exists_classes
  have hE : cs.elements.Perm (elementsOf cs.render) := by rw [cs.elementsOf_render]
  obtain ⟨ok1, ok2, hcomm⟩ := hsq
  rw [cs.denote_render] at h1 h2 ok1 ok2 hcomm
  obtain ⟨cs1, hu1, he1, hp1⟩ := h1.fromState cs hE hstar hfit'
  obtain ⟨cs2, hu2, he2, hp2⟩ := h2.fromState cs hE hstar hfit'
  rw [← hp1] at ok2
  rw [← hp2] at ok1
  obtain ⟨cs12, hu12, he12, hp12⟩ := ok2.fromState cs1 he1 hstar hfit'
  obtain ⟨cs21, hu21, he21, hp21⟩ := ok1.fromState cs2 he2 hstar hfit'
  refine ⟨op1', op2', cs1.render, cs2.render, cs12.render, cs21.render, hot, hu1, hu12, hu2, hu21,
    cs12.wellFormed_render, cs21.wellFormed_render, ?_, ?_, ?_⟩
  · rw [cs12.elementsOf_render]
    exact he12
  · rw [cs21.elementsOf_render]
    exact he21
  · rw [cs12.denote_render, cs21.denote_render, hp12, hp21, hp1, hp2, hcomm]

end

/-- In the class `{a, b, c}`, the splits of `a,b` and of `b,c` overlap in part. -/
theorem otSplit_tp1_overlap : ∃ op1' op2' S1 S2 S12 S21,
      otUfs "a,b,c".toList (splitOp "a,b".toList) (splitOp "b,c".toList) .split = .ok (op1', op2') ∧
      updateVerticeUfsFromState "a,b,c".toList (splitOp "a,b".toList) "a,b,c".toList.length =
        .ok S1 ∧
      updateVerticeUfsFromState S1 op2' S1.length = .ok S12 ∧
      updateVerticeUfsFromState "a,b,c".toList (splitOp "b,c".toList) "a,b,c".toList.length =
        .ok S2 ∧
      updateVerticeUfsFromState S2 op1' S2.length = .ok S21 ∧
      WellFormed S12 ∧ WellFormed S21 ∧ (elementsOf S12).Perm (elementsOf "a,b,c".toList) ∧
      (elementsOf S21).Perm (elementsOf "a,b,c".toList) ∧ denote S12 = denote S21 := by
  have hS : WellFormed "a,b,c".toList := by decide +kernel
  have hrel : ∀ X : List Sds, (∀ x ∈ X, ∀ y ∈ X, InClass (classesOf "a,b,c".toList) x y) →
      ∀ x ∈ X, ∀ y ∈ X, denote "a,b,c".toList x y := fun X h x hx y hy =>
    hS.denote_iff.mpr (.inr (h x hx y hy))
  exact otSplit_tp1 hS (by decide +kernel) (by decide +kernel)
    (.split (X := [['a'], ['b']]) ⟨by simp, by decide, by decide +kernel, hrel _ (by decide +kernel)⟩)
    (.split (X := [['b'], ['c']]) ⟨by simp, by decide, by decide +kernel, hrel _ (by decide +kernel)⟩)

end UfsRedis

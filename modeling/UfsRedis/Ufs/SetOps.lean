import UfsRedis.Ufs.GraphPartition

/-!
# Operations with sets

An operand of `union` and `split` can be a set of names separated by commas.

* `OperandOk`: the operands that `checkUnionArgv` and `checkSplitArgv` accept
  (`operand_of_checkSplitArgv`, `operands_of_checkUnionArgv`);
* `unionAct`: what `unionProc` does to the partition. It glues both sets, unless their first names
  are already adjacent;
* `GraphShows.unionProc`, `GraphShows.splitProc`: the graph follows.
-/

namespace UfsRedis

open List Lib Partition CudGraph

/-- An accepted operand: distinct elements of one class. -/
structure OperandOk (E : List Sds) (p : Setoid Sds) (X : List Sds) : Prop where
  ne : X ≠ []
  nodup : X.Nodup
  mem : ∀ x ∈ X, x ∈ E
  rel : ∀ x ∈ X, ∀ y ∈ X, p x y

def first (X : List Sds) : Sds := X.headD []

theorem first_mem (h : X ≠ []) : first X ∈ X := by
  cases X with
  | nil => exact absurd rfl h
  | cons x X => exact mem_cons_self

open Classical in
/-- What `unionProc` does to a partition. -/
noncomputable def unionAct (p : Setoid Sds) (X Y : List Sds) : Setoid Sds :=
  if first X ≠ first Y ∧ p (first X) (first Y) then p else glue p {x | x ∈ X ++ Y}

variable {p : Setoid Sds} {X Y : List Sds}

section

theorem unionAct_of_rel (h : first X ≠ first Y) (hp : p (first X) (first Y)) :
    unionAct p X Y = p := if_pos ⟨h, hp⟩

theorem unionAct_eq_glue (h : first X ≠ first Y → p (first X) (first Y) →
    ∀ x ∈ X ++ Y, ∀ y ∈ X ++ Y, p x y) : unionAct p X Y = glue p {x | x ∈ X ++ Y} := by
  unfold unionAct
  split
  · next hp => exact (glue_eq_self (h hp.1 hp.2)).symm
  · rfl

theorem unionAct_comm : unionAct p X Y = unionAct p Y X := by
  have hset : {x | x ∈ X ++ Y} = {x | x ∈ Y ++ X} := by
    ext x
    simp [or_comm]
  have hcond : (first X ≠ first Y ∧ p (first X) (first Y)) ↔
      (first Y ≠ first X ∧ p (first Y) (first X)) :=
    and_congr ne_comm ⟨p.symm', p.symm'⟩
  by_cases h : first X ≠ first Y ∧ p (first X) (first Y)
  · rw [unionAct, if_pos h, unionAct, if_pos (hcond.mp h)]
  · rw [unionAct, if_neg h, unionAct, if_neg (mt hcond.mpr h), hset]

variable {E : List Sds}

theorem rel_append (hX : OperandOk E p X) (hY : OperandOk E p Y)
    (h : p (first X) (first Y)) : ∀ x ∈ X ++ Y, ∀ y ∈ X ++ Y, p x y := by
  have hfirst : ∀ x ∈ X ++ Y, p x (first X) := by
    intro x hx
    rcases mem_append.mp hx with hx | hx
    · exact hX.rel x hx _ (first_mem hX.ne)
    · exact p.trans' (hY.rel x hx _ (first_mem hY.ne)) (p.symm' h)
  exact fun x hx y hy => p.trans' (hfirst x hx) (p.symm' (hfirst y hy))

theorem glue_append (hX : OperandOk E p X) (hY : OperandOk E p Y)
    (h : p (first X) (first Y)) : glue p {x | x ∈ X ++ Y} = p := glue_eq_self (rel_append hX hY h)

theorem unionAct_of_operands (hX : OperandOk E p X) (hY : OperandOk E p Y) :
    unionAct p X Y = glue p {x | x ∈ X ++ Y} :=
  unionAct_eq_glue fun _ h => rel_append hX hY h

end

/-! ## The strings -/

theorem isSet_sdsjoin (hne : X ≠ []) (hX : ∀ x ∈ X, ',' ∉ x) :
    isSet (sdsjoin X ',') = decide (1 < X.length) := by
  have hcount := count_sdsjoin hne hX
  have hiff : ',' ∈ sdsjoin X ',' ↔ 1 < X.length := by
    rw [← count_pos_iff]
    omega
  simp [isSet, hiff]

theorem isSet_join (hne : X ≠ []) (hX : ∀ x ∈ X, NameOk x) :
    isSet (sdsjoin X ',') = decide (1 < X.length) := isSet_sdsjoin hne fun x hx => (hX x hx).2.1

theorem sdssplit_name (hx : NameOk x) : sdssplit x ',' = [x] := by
  have := split_operand (X := [x]) (by simpa using hx)
  rwa [sdsjoin_singleton] at this

theorem exists_singleton (hne : X ≠ []) (h : ¬ 1 < X.length) : ∃ x, X = [x] := by
  match X, hne with
  | [x], _ => exact ⟨x, rfl⟩
  | x :: y :: X, _ => simp at h

/-! ## The graph -/

variable {E : List Sds} {g : CudGraph} {x y : Sds}

theorem GraphHas.existEdgeNames (h : GraphHas E g p) (hx : x ∈ E) (hy : y ∈ E) :
    ∃ b, existEdgeNames g x y = .ok b ∧ (b = true ↔ x ≠ y ∧ p x y) := by
  obtain ⟨i, hi, rfl, hli⟩ := h.exists_vex hx
  obtain ⟨j, hj, rfl, hlj⟩ := h.exists_vex hy
  refine ⟨existEdge g i j, by simp [UfsRedis.existEdgeNames, hli, hlj], ?_⟩
  rw [existEdge, decide_eq_true_eq, h.cliques.mem_adj_iff, ← h.partition,
    partition_name h.cliques h.nodup_names hi hj]
  exact and_congr_left fun _ => not_congr
    ⟨fun hij => by rw [hij], fun hn => name_inj h.nodup_names hi hj hn⟩

theorem GraphShows.existEdgeNames (h : GraphShows E g p) (hx : x ∈ E) (hy : y ∈ E) :
    ∃ b, existEdgeNames g x y = .ok b ∧ (b = true ↔ x ≠ y ∧ p x y) := h.has.existEdgeNames hx hy

variable {L : List Sds} {a b : Sds}

theorem GraphHas.foldlM_glue {f : CudGraph → Sds → Except Fault CudGraph} {A : Sds → Set Sds}
    (hy : ∀ e ∈ L, y ∈ A e) (hf : ∀ e ∈ L, ∀ g r, GraphHas E g r →
      ∃ g', f g e = .ok g' ∧ GraphHas E g' (glue r (A e))) (h : GraphHas E g p) :
    ∃ g', L.foldlM f g = .ok g' ∧ GraphHas E g' (glue p ({y} ∪ {x | ∃ e ∈ L, x ∈ A e})) := by
  induction L generalizing g p with
  | nil => exact ⟨g, rfl, by simpa using h⟩
  | cons e L ih =>
    obtain ⟨g1, hg1, h1⟩ := hf e (by simp) g p h
    obtain ⟨g', hg', h'⟩ := ih (fun e he => hy e (by simp [he]))
      (fun e he => hf e (by simp [he])) h1
    refine ⟨g', by rw [foldlM_cons, hg1, ok_bind, hg'], ?_⟩
    rw [glue_glue_of_mem (hy e (by simp)) (.inl rfl)] at h'
    convert h' using 2
    ext x
    simp only [mem_cons, Set.mem_union, Set.mem_singleton_iff, Set.mem_ofPred_eq, exists_eq_or_imp]
    exact or_left_comm

section

variable (h : GraphHas E g p)
include h

theorem GraphHas.linkAll (hX : ∀ x ∈ X, x ∈ E) (hy : y ∈ E) :
    (∃ g', X.foldlM (fun g e => UfsRedis.createLinksNames g e y) g = .ok g' ∧
      GraphHas E g' (glue p {x | x ∈ X ++ [y]})) ∧
    ∃ g', X.foldlM (fun g e => UfsRedis.createLinksNames g y e) g = .ok g' ∧
      GraphHas E g' (glue p {x | x ∈ X ++ [y]}) := by
  have hset : ({y} ∪ {x | ∃ e ∈ X, x ∈ ({e, y} : Set Sds)}) = {x | x ∈ X ++ [y]} := by
    ext x
    simp only [Set.mem_union, Set.mem_singleton_iff, Set.mem_ofPred_eq, Set.mem_insert_iff,
      mem_append, mem_singleton]
    constructor
    · rintro (rfl | ⟨e, he, rfl | rfl⟩)
      · exact .inr rfl
      · exact .inl he
      · exact .inr rfl
    rintro (hx | rfl)
    · exact .inr ⟨x, hx, .inl rfl⟩
    · exact .inl rfl
  rw [← hset]
  refine ⟨h.foldlM_glue (by simp) fun e he g r hg => hg.createLinksNames (hX e he) hy,
    h.foldlM_glue (by simp) fun e he g r hg => ?_⟩
  rw [Set.pair_comm]
  exact hg.createLinksNames hy (hX e he)

theorem GraphHas.linkSets (hX : ∀ x ∈ X, x ∈ E) (hY : ∀ y ∈ Y, y ∈ E)
    (hXne : X ≠ []) (hYne : Y ≠ []) : ∃ g', X.foldlM (fun g e1 => Y.foldlM
      (fun g e2 => UfsRedis.createLinksNames g e1 e2) g) g = .ok g' ∧
      GraphHas E g' (glue p {x | x ∈ X ++ Y}) := by
  have hset : ({first Y} ∪ {x | ∃ e ∈ X, x ∈ {x | x ∈ Y ++ [e]}}) = {x | x ∈ X ++ Y} := by
    ext x
    simp only [Set.mem_union, Set.mem_singleton_iff, Set.mem_ofPred_eq, mem_append, mem_singleton]
    constructor
    · rintro (rfl | ⟨e, he, hx | rfl⟩)
      · exact .inr (first_mem hYne)
      · exact .inr hx
      · exact .inl he
    rintro (hx | hx)
    · exact .inr ⟨x, hx, .inr rfl⟩
    · exact .inr ⟨first X, first_mem hXne, .inl hx⟩
  rw [← hset]
  refine h.foldlM_glue (fun e _ => ?_) fun e he g r hg => (hg.linkAll hY (hX e he)).2
  exact mem_append_left _ (first_mem hYne)

theorem GraphHas.union_of_link (hx : first X ∈ E) (hy : first Y ∈ E)
    (hf : ∃ g', f = .ok g' ∧ GraphHas E g' (glue p {x | x ∈ X ++ Y})) :
    ∃ g', (do if ← UfsRedis.existEdgeNames g (first X) (first Y) then .ok g else f) = .ok g' ∧
      GraphHas E g' (unionAct p X Y) := by
  obtain ⟨b, hb, hiff⟩ := h.existEdgeNames hx hy
  rw [hb, ok_bind]
  by_cases hrel : first X ≠ first Y ∧ p (first X) (first Y)
  · exact ⟨g, if_pos (hiff.mpr hrel), by rwa [unionAct_of_rel hrel.1 hrel.2]⟩
  rw [if_neg (mt hiff.mp hrel), unionAct, if_neg hrel]
  exact hf

theorem GraphHas.unionProc (hX : ∀ x ∈ X, x ∈ E) (hY : ∀ y ∈ Y, y ∈ E)
    (hXn : ∀ x ∈ X, x ≠ [] ∧ ',' ∉ x) (hYn : ∀ y ∈ Y, y ≠ [] ∧ ',' ∉ y)
    (hXne : X ≠ []) (hYne : Y ≠ []) (hXs : sdsjoin X ',' ≠ star) (hYs : sdsjoin Y ',' ≠ star) :
    ∃ g', unionProc g (sdsjoin X ',') (sdsjoin Y ',') = .ok g' ∧
      GraphHas E g' (unionAct p X Y) := by
  have hfX := hX _ (first_mem hXne)
  have hfY := hY _ (first_mem hYne)
  rw [UfsRedis.unionProc, if_neg (by simp [hXs, hYs]), isSet_sdsjoin hXne fun x hx => (hXn x hx).2,
    isSet_sdsjoin hYne fun x hx => (hYn x hx).2,
    sdssplit_sdsjoin (fun x hx => (hXn x hx).2) fun x hx => (hXn x hx).1,
    sdssplit_sdsjoin (fun x hx => (hYn x hx).2) fun x hx => (hYn x hx).1]
  by_cases hX1 : 1 < X.length <;> by_cases hY1 : 1 < Y.length <;>
    simp only [hX1, hY1, decide_true, decide_false]
  · exact h.union_of_link hfX hfY (h.linkSets hX hY hXne hYne)
  · obtain ⟨y, rfl⟩ := exists_singleton hYne hY1
    rw [sdsjoin_singleton]
    exact h.union_of_link hfX hfY (h.linkAll hX hfY).1
  · obtain ⟨x, rfl⟩ := exists_singleton hXne hX1
    rw [sdsjoin_singleton, unionAct_comm]
    exact h.union_of_link hfY hfX (h.linkAll hY hfX).1
  obtain ⟨x, rfl⟩ := exists_singleton hXne hX1
  obtain ⟨y, rfl⟩ := exists_singleton hYne hY1
  rw [sdsjoin_singleton, sdsjoin_singleton, unionAct_eq_glue]
  · have hset : {u | u ∈ [x] ++ [y]} = ({x, y} : Set Sds) := by
      ext u
      simp
    rw [hset]
    exact h.createLinksNames hfX hfY
  · simpa [first, p.refl'] using fun _ hxy => ⟨hxy, p.symm' hxy⟩

end

theorem GraphShows.unionProc (h : GraphShows E g p) (hX : ∀ x ∈ X, x ∈ E) (hY : ∀ y ∈ Y, y ∈ E)
    (hXne : X ≠ []) (hYne : Y ≠ []) (hXs : sdsjoin X ',' ≠ star) (hYs : sdsjoin Y ',' ≠ star) :
    ∃ g', unionProc g (sdsjoin X ',') (sdsjoin Y ',') = .ok g' ∧
      GraphShows E g' (unionAct p X Y) := by
  have hname : ∀ x ∈ E, x ≠ [] ∧ ',' ∉ x := fun x hx => (h.nameOk x hx).comma
  obtain ⟨g', hr, hg'⟩ := h.has.unionProc hX hY (fun x hx => hname x (hX x hx))
    (fun y hy => hname y (hY y hy)) hXne hYne hXs hYs
  exact ⟨g', hr, hg'.shows h.nameOk⟩

theorem GraphHas.splitProc (h : GraphHas E g p) (hX : ∀ x ∈ X, x ∈ E)
    (hXn : ∀ x ∈ X, x ≠ [] ∧ ',' ∉ x) (hXne : X ≠ []) (hXs : sdsjoin X ',' ≠ star) :
    ∃ g', splitProc g (sdsjoin X ',') = .ok g' ∧ GraphHas E g' (cut p {x | x ∈ X}) := by
  have hset := isSet_sdsjoin hXne fun x hx => (hXn x hx).2
  by_cases hX1 : 1 < X.length
  · rw [decide_eq_true hX1] at hset
    obtain ⟨g', hr, hcut⟩ := splitProc_set h.cliques.toSimple h.nodup_names
      fun x hx => h.names ▸ hX x hx
    refine ⟨g', ?_, hcut.graphHas h⟩
    rw [UfsRedis.splitProc, if_pos hset,
      sdssplit_sdsjoin (fun x hx => (hXn x hx).2) fun x hx => (hXn x hx).1, hr]
  rw [decide_eq_false hX1] at hset
  obtain ⟨x, rfl⟩ := exists_singleton hXne hX1
  rw [sdsjoin_singleton] at hset hXs ⊢
  obtain ⟨i, hi, rfl, -⟩ := h.exists_vex (hX x (by simp))
  obtain ⟨g', hr, hcut⟩ := removeAdjEdge_single h.cliques.toSimple h.nodup_names hi
  refine ⟨g', by rw [UfsRedis.splitProc, if_neg (by simp [hset]), if_pos hXs, hr], ?_⟩
  have hsing : {y | y ∈ [g.name i]} = ({g.name i} : Set Sds) := by
    ext y
    simp
  rw [hsing]
  exact hcut.graphHas h

theorem GraphShows.splitProc (h : GraphShows E g p) (hX : ∀ x ∈ X, x ∈ E) (hXne : X ≠ []) :
    ∃ g', splitProc g (sdsjoin X ',') = .ok g' ∧
      GraphShows E g' ((splitOp (sdsjoin X ',')).act p) := by
  have hXn : ∀ x ∈ X, NameOk x := fun x hx => h.nameOk x (hX x hx)
  by_cases hs : sdsjoin X ',' = star
  · refine ⟨g, by rw [hs]; rfl, ?_⟩
    rw [hs, act_split_star]
    exact h
  obtain ⟨g', hr, hg'⟩ := h.has.splitProc hX (fun x hx => (hXn x hx).comma) hXne hs
  refine ⟨g', hr, ?_⟩
  simp only [UfsOp.act, splitOp, if_neg hs, operand, split_operand hXn]
  exact hg'.shows h.nameOk

/-! ## The checks -/

theorem allM_ok {f : Sds → Except Fault Bool} {P : Sds → Prop}
    (h : ∀ x ∈ L, ∃ b, f x = .ok b ∧ (b = true ↔ P x)) :
    ∃ b, L.allM f = .ok b ∧ (b = true ↔ ∀ x ∈ L, P x) := by
  induction L with
  | nil => exact ⟨true, rfl, by simp⟩
  | cons x L ih =>
    obtain ⟨b, hb, hiff⟩ := h x (by simp)
    obtain ⟨b', hb', hiff'⟩ := ih fun y hy => h y (by simp [hy])
    cases b with
    | true =>
      refine ⟨b', by rw [List.allM, hb, ok_bind]; exact hb', ?_⟩
      rw [hiff', forall_mem_cons, and_iff_right (hiff.mp rfl)]
    | false =>
      refine ⟨false, by rw [List.allM, hb, ok_bind]; rfl, ?_⟩
      rw [forall_mem_cons, ← hiff]
      simp

section

variable (h : GraphShows E g p)
include h

theorem GraphShows.isConnected (hX : ∀ x ∈ X, x ∈ E) :
    ∃ b, isConnected g X = .ok b ∧ (b = true ↔ X.Pairwise fun x y => x ≠ y ∧ p x y) := by
  induction X with
  | nil => exact ⟨true, rfl, by simp⟩
  | cons x X ih =>
    obtain ⟨b, hb, hiff⟩ := allM_ok (L := X) fun y hy =>
      h.existEdgeNames (hX x (by simp)) (hX y (by simp [hy]))
    obtain ⟨b', hb', hiff'⟩ := ih fun y hy => hX y (by simp [hy])
    rw [UfsRedis.isConnected, hb, ok_bind, pairwise_cons]
    cases b with
    | true => exact ⟨b', by simpa using hb', by rw [hiff', ← hiff]; simp⟩
    | false => exact ⟨false, rfl, by rw [← hiff]; simp⟩

theorem GraphShows.existElements : existElements g X = true ↔ ∀ x ∈ X, x ∈ E := by
  simp [UfsRedis.existElements, h.existElement]

theorem GraphShows.operandOk (hne : X ≠ [])
    (hex : UfsRedis.existElements g X = true) (hc : UfsRedis.isConnected g X = .ok true) :
    OperandOk E p X := by
  have hmem := h.existElements.mp hex
  obtain ⟨b, hb, hiff⟩ := h.isConnected hmem
  rw [hc, Except.ok.injEq] at hb
  have hpw := hiff.mp hb.symm
  refine ⟨hne, hpw.imp And.left, hmem, fun x hx y hy => ?_⟩
  exact (hpw.imp And.right).forall_of_forall (fun x _ => p.refl' x) hx hy

theorem GraphShows.operandOk_single (hx : x ∈ E) : OperandOk E p (sdssplit x ',') := by
  rw [sdssplit_name (h.nameOk x hx)]
  exact ⟨by simp, by simp, by simpa using hx, by simp⟩

end

theorem sdssplit_ne_nil (ha : isSet a = true) : sdssplit a ',' ≠ [] := by
  intro hnil
  have := sdsjoin_sdssplit a ','
  rw [hnil, sdsjoin_nil] at this
  rw [← this] at ha
  exact absurd ha (by decide)

theorem GraphShows.operand_of_checkSplitArgv (h : GraphShows E g p)
    (ha : checkSplitArgv g a = .ok none) : OperandOk E p (sdssplit a ',') := by
  unfold checkSplitArgv at ha
  split at ha
  · next hset =>
    obtain ⟨b, hb, ha⟩ := bind_eq_ok.mp ha
    obtain _ | _ := b
    · cases ha
    simp only [if_true] at ha
    split at ha
    · next hex => exact h.operandOk (sdssplit_ne_nil hset) hex hb
    · cases ha
  split at ha
  · next hex =>
    rw [h.existElement, decide_eq_true_eq] at hex
    exact h.operandOk_single hex
  · cases ha

theorem GraphShows.operands_of_checkSetSingle (h : GraphShows E g p)
    (hset : isSet a = true) (hc : checkSetSingle g a b err = .ok none) :
    OperandOk E p (sdssplit a ',') ∧ OperandOk E p (sdssplit b ',') := by
  rw [checkSetSingle, bind_eq_ok] at hc
  obtain ⟨c, hb, hc⟩ := hc
  obtain _ | _ := c
  · cases hc
  simp only [if_true] at hc
  split at hc
  · next hex =>
    rw [Bool.and_eq_true, h.existElement, decide_eq_true_eq] at hex
    exact ⟨h.operandOk (sdssplit_ne_nil hset) hex.1 hb, h.operandOk_single hex.2⟩
  · cases hc

/-- **What `checkUnionArgv` accepts.** The marker is accepted beside a single element only. -/
theorem GraphShows.operands_of_checkUnionArgv (h : GraphShows E g p)
    (hc : checkUnionArgv g a b = .ok none) : ((a = star ∨ b = star) ∧ ArgOk E a ∧ ArgOk E b) ∨
      (a ≠ star ∧ b ≠ star ∧ OperandOk E p (sdssplit a ',') ∧ OperandOk E p (sdssplit b ',')) := by
  unfold checkUnionArgv at hc
  split at hc
  · rename_i hst
    refine .inl ⟨hst, ?_⟩
    split at hc
    · cases hc
    next ha =>
    split at hc
    · cases hc
    next hb =>
    simp only [h.existElement, decide_eq_true_eq, not_and, not_not] at ha hb
    exact ⟨(em (a = star)).elim .inr fun ha' => .inl (ha ha'),
      (em (b = star)).elim .inr fun hb' => .inl (hb hb')⟩
  rename_i hst
  refine .inr ⟨fun ha => hst (.inl ha), fun hb => hst (.inr hb), ?_⟩
  cases ha : isSet a <;> cases hb : isSet b <;> simp only [ha, hb] at hc
  · split at hc
    · next hex =>
      simp only [Bool.and_eq_true, h.existElement, decide_eq_true_eq] at hex
      exact ⟨h.operandOk_single hex.1, h.operandOk_single hex.2⟩
    · cases hc
  · exact (h.operands_of_checkSetSingle hb hc).symm
  · exact h.operands_of_checkSetSingle ha hc
  simp only [bind_eq_ok] at hc
  obtain ⟨c1, hc1, c2, hc2, hc⟩ := hc
  cases c1 <;> cases c2 <;> simp only [Bool.not_true, Bool.not_false, Bool.and_self,
    Bool.and_true, Bool.and_false, Bool.false_eq_true, if_true, if_false] at hc
  · cases hc
  · cases hc
  · cases hc
  split at hc
  · next hex =>
    rw [Bool.and_eq_true] at hex
    exact ⟨h.operandOk (sdssplit_ne_nil ha) hex.1 hc1,
      h.operandOk (sdssplit_ne_nil hb) hex.2 hc2⟩
  · cases hc

end UfsRedis

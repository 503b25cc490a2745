import UfsRedis.Ot.SetTp1

/-!
# The content of a vertice follows the graph

`updateVerticeUfsFromState` applies an operation to a content string, `unionProc` and `splitProc`
apply it to a graph.
-/

namespace UfsRedis

open Lib Partition

/-- An argument of an operation on the content `u`: the marker, or distinct names of one class. The
first name of a set has to fit the buffer of `findstr`. -/
inductive StateArg (u : Sds) : Sds → Prop
  | star : StateArg u star
  | names {X : List Sds} (h : InContent u X) (hfit : 1 < X.length → (first X).length ≤ 9) :
    StateArg u (sdsjoin X ',')

/-- An operation on the content `u`. -/
inductive StateOp (u : Sds) : UfsOp → Prop
  | union {a b : Sds} (ha : StateArg u a) (hb : StateArg u b) : StateOp u (unionOp a b)
  | split {a : Sds} (ha : StateArg u a) : StateOp u (splitOp a)

variable {u a b : Sds} {E X Y : List Sds} {g : CudGraph} {p : Setoid Sds}

theorem StateArg.cases_names (hu : WellFormed u) (h : StateArg u a) : a = UfsRedis.star ∨
    a ≠ UfsRedis.star ∧ ∃ X, a = sdsjoin X ',' ∧ InContent u X ∧ firstName a = .ok (first X) := by
  by_cases ha : a = UfsRedis.star
  · exact .inl ha
  cases h with
  | star => exact absurd rfl ha
  | @names X h hfit =>
    refine .inr ⟨ha, X, rfl, h, ?_⟩
    rw [firstName_operand h.ne fun x hx => hu.shows.name_ok (h.mem x hx), if_neg]
    exact fun hlong => hlong.2 (Nat.lt_succ_of_le (hfit hlong.1))

theorem glue_operands (hX : OperandOk E p X) (hY : OperandOk E p Y) :
    glue p {x | x ∈ X ++ Y} = glue p {first X, first Y} := by
  refine glue_congr fun x => ⟨?_, ?_⟩
  · rintro ⟨z, hz, hxz⟩
    rcases List.mem_append.mp hz with hz | hz
    · exact ⟨first X, by simp, p.trans' hxz (hX.rel z hz _ (first_mem hX.ne))⟩
    · exact ⟨first Y, by simp, p.trans' hxz (hY.rel z hz _ (first_mem hY.ne))⟩
  rintro ⟨z, rfl | rfl, hxz⟩
  · exact ⟨_, List.mem_append_left _ (first_mem hX.ne), hxz⟩
  · exact ⟨_, List.mem_append_right _ (first_mem hY.ne), hxz⟩

/-- The state after an operation: `v` is the new content and `g'` the new graph, and the old content
stays if the partition does. -/
structure Follows (u v : Sds) (E : List Sds) (g' : CudGraph) : Prop where
  wellFormed : WellFormed v
  elements : (elementsOf v).Perm (elementsOf u)
  graph : GraphShows E g' (denote v)
  same : denote v = denote u → v = u

theorem Follows.refl (hu : WellFormed u) (hg : GraphShows E g (denote u)) : Follows u u E g :=
  ⟨hu, .refl _, hg, fun _ => rfl⟩

theorem Follows.of_classes {cs cs' : Classes} {g' : CudGraph}
    (hperm : cs'.elements.Perm cs.elements) (hg : GraphShows E g' cs'.partition)
    (hne : cs'.partition ≠ cs.partition) : Follows cs.render cs'.render E g' where
  wellFormed := cs'.wellFormed_render
  elements := by rwa [cs'.elementsOf_render, cs.elementsOf_render]
  graph := by rwa [cs'.denote_render]
  same h := by
    rw [cs'.denote_render, cs.denote_render] at h
    exact absurd h hne

theorem union_follows {cs : Classes} (hE : E.Perm cs.elements) (hg : GraphShows E g cs.partition)
    (ha : StateArg cs.render a) (hb : StateArg cs.render b) :
    ∃ v g', updateVerticeUfsFromState cs.render (unionOp a b) cs.render.length = .ok v ∧
      unionProc g a b = .ok g' ∧ Follows cs.render v E g' := by
  have hu := cs.wellFormed_render
  have hgu : GraphShows E g (denote cs.render) := by rwa [cs.denote_render]
  by_cases hs : a = star ∨ b = star
  · exact ⟨cs.render, g, fromState_union_star cs hs, by rw [unionProc, if_pos hs], .refl hu hgu⟩
  obtain ⟨has, hbs⟩ := not_or.mp hs
  obtain ⟨-, X, rfl, hX, hfX⟩ := (ha.cases_names hu).resolve_left has
  obtain ⟨-, Y, rfl, hY, hfY⟩ := (hb.cases_names hu).resolve_left hbs
  rw [InContent, cs.elementsOf_render, cs.denote_render] at hX hY
  have hmem : ∀ x ∈ cs.elements, x ∈ E := fun x hx => hE.mem_iff.mpr hx
  obtain ⟨g', hg', hshow⟩ := hg.unionProc (fun x hx => hmem x (hX.mem x hx))
    (fun y hy => hmem y (hY.mem y hy)) hX.ne hY.ne has hbs
  rw [unionAct_of_operands hX hY, glue_operands hX hY] at hshow
  rcases fromState_union_cases cs hfX hfY (hX.mem _ (first_mem hX.ne))
      (hY.mem _ (first_mem hY.ne)) has hbs with ⟨hxy, hr⟩ | ⟨hxy, cs', hr, hperm, hpart⟩
  · refine ⟨cs.render, g', hr, hg', .refl hu ?_⟩
    rwa [← glue_operands hX hY, glue_append hX hY hxy, ← cs.denote_render] at hshow
  refine ⟨cs'.render, g', hr, hg', .of_classes hperm (by rwa [hpart]) fun heq => hxy ?_⟩
  rw [← heq, hpart]
  exact glue_rel (by simp) (by simp)

theorem split_follows {cs : Classes} (hE : E.Perm cs.elements) (hg : GraphShows E g cs.partition)
    (ha : StateArg cs.render a) :
    ∃ v g', updateVerticeUfsFromState cs.render (splitOp a) cs.render.length = .ok v ∧
      splitProc g a = .ok g' ∧ Follows cs.render v E g' := by
  have hu := cs.wellFormed_render
  have hgu : GraphShows E g (denote cs.render) := by rwa [cs.denote_render]
  rcases ha.cases_names hu with rfl | ⟨has, X, rfl, hX, hfX⟩
  · exact ⟨cs.render, g, fromState_split_star cs, rfl, .refl hu hgu⟩
  rw [InContent, cs.elementsOf_render, cs.denote_render] at hX
  have hXn : ∀ x ∈ X, NameOk x := fun x hx => cs.name_ok (hX.mem x hx)
  obtain ⟨g', hg', hshow⟩ := hg.splitProc (fun x hx => hE.mem_iff.mpr (hX.mem x hx)) hX.ne
  have hact : (splitOp (sdsjoin X ',')).act cs.partition = cut cs.partition {x | x ∈ X} := by
    simp only [UfsOp.act, splitOp, if_neg has, operand, split_operand hXn]
  rw [hact] at hshow
  obtain ⟨c, hc, hfc⟩ := List.mem_flatten.mp (hX.mem _ (first_mem hX.ne))
  have hsub : ∀ x ∈ X, x ∈ c := fun x hx =>
    (cs.partition_iff_mem hc hfc).mp (hX.rel x hx _ (first_mem hX.ne))
  obtain ⟨t0, t, rfl⟩ := List.exists_cons_of_ne_nil hX.ne
  rcases fromState_split_cases cs hc hX.nodup hsub hfX has with
    ⟨hcov, hr⟩ | ⟨⟨x, hx, hxt⟩, cs', hr, hperm, hpart⟩
  · refine ⟨cs.render, g', hr, hg', .refl hu ?_⟩
    rw [cut_eq_self ?_, ← cs.denote_render] at hshow
    · exact hshow
    have hp : ∀ y z, cs.partition y z → z ∈ t0 :: t → y ∈ t0 :: t := fun y z hyz hz =>
      hcov y ((cs.partition_iff_mem hc (hsub z hz)).mp hyz)
    exact fun y z hyz => ⟨hp z y (cs.partition.symm' hyz), hp y z hyz⟩
  refine ⟨cs'.render, g', hr, hg', .of_classes hperm (by rwa [hpart]) fun heq => hxt ?_⟩
  -- `x` was in the class of `t0`
  have hrel : cs.partition x t0 := (cs.partition_iff_mem hc hfc).mpr hx
  rw [← heq, hpart] at hrel
  exact (cut_iff.mp hrel).2.mpr (by simp)

/-- **The content follows the graph.** For a well-formed content `u`, a graph that denotes the same
partition of its elements, and an operation whose arguments are `*` or names of one class: both
return, the new content is well-formed with the same elements and denotes the partition of the new
graph, and it is `u` if the partition does not change. -/
theorem fromState_simulates {op : UfsOp} (hu : WellFormed u) (hE : E.Perm (elementsOf u))
    (hg : GraphShows E g (denote u)) (hop : StateOp u op) :
    ∃ v g', updateVerticeUfsFromState u op u.length = .ok v ∧ execOp g op = .ok g' ∧
      WellFormed v ∧ (elementsOf v).Perm (elementsOf u) ∧ GraphShows E g' (denote v) ∧
      (g'.partition = g.partition → v = u) := by
  obtain ⟨cs, rfl, -⟩ := hu.exists_classes
  rw [cs.elementsOf_render] at hE
  have hg' := hg
  rw [cs.denote_render] at hg'
  have hfollow : ∃ v g', updateVerticeUfsFromState cs.render op cs.render.length = .ok v ∧
      execOp g op = .ok g' ∧ Follows cs.render v E g' := by
    cases hop with
    | union ha hb => exact union_follows hE hg' ha hb
    | split ha => exact split_follows hE hg' ha
  obtain ⟨v, g', hv, hexec, hf⟩ := hfollow
  refine ⟨v, g', hv, hexec, hf.wellFormed, hf.elements, hf.graph, fun heq => hf.same ?_⟩
  rw [← hf.graph.partition, heq, hg.partition]

/-- The split of `c,b` from the class `a,b,c`, on the content and on the graph of `uinit`. -/
theorem fromState_simulates_split : ∃ g v g', uinitGraph ['k'] ['a', ',', 'b', ',', 'c'] = .ok g ∧
    updateVerticeUfsFromState ['a', ',', 'b', ',', 'c'] (splitOp ['c', ',', 'b']) 5 = .ok v ∧
    execOp g (splitOp ['c', ',', 'b']) = .ok g' ∧ g'.partition = denote v := by
  have hu : WellFormed ['a', ',', 'b', ',', 'c'] := by decide +kernel
  have hel : elementsOf ['a', ',', 'b', ',', 'c'] = [['a'], ['b'], ['c']] := by decide +kernel
  have hclass : classesOf ['a', ',', 'b', ',', 'c'] = [[['a'], ['b'], ['c']]] := by decide +kernel
  obtain ⟨g, hr, hg, -⟩ := uinitGraph_spec ['k'] hu
  have hX : InContent ['a', ',', 'b', ',', 'c'] [['c'], ['b']] := by
    refine ⟨by simp, by decide, by rw [hel]; decide, fun x hx y hy => hu.denote_iff.mpr (.inr ?_)⟩
    exact ⟨[['a'], ['b'], ['c']], by rw [hclass]; simp, by revert x; decide, by revert y; decide⟩
  obtain ⟨v, g', hv, hg', -, -, hshow, -⟩ := fromState_simulates hu (.refl _) hg
    (.split (.names hX (by decide)))
  exact ⟨g, v, g', hr, hv, hg', hshow.partition⟩

end UfsRedis

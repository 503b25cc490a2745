import UfsRedis.Ufs.FromState

/-!
# The meaning of operations, and TP1 for single-element operations

`UfsOp.act` is what an operation does to a partition: a union glues, a split cuts, the marker `*`
stands for no operand.

* `Shows E S p`: the content `S` of a set with elements `E` denotes the partition `p`;
* `Shows.fromState`: `updateVerticeUfsFromState` acts on the content as `UfsOp.act` does on the
  partition;
* `Shows.otUfs`: `otUfs` does not fault and gives single-element operations of the same kinds;
* `Transform.square`: the two ways around a square of transformed operations meet, if no element is
  named `*`.
-/

namespace UfsRedis

open List Lib Partition Set

def operand (v : Sds) : Set Sds := {x | x ∈ sdssplit v ','}

theorem operand_join (ht : ∀ x ∈ t, NameOk x) : operand (sdsjoin t ',') = {x | x ∈ t} := by
  rw [operand, split_operand ht]

theorem operand_name (hx : NameOk x) : operand x = {x} := by
  have := operand_join (t := [x]) (by simpa using hx)
  rw [sdsjoin_singleton] at this
  rw [this]
  ext y
  simp

def UfsOp.act (op : UfsOp) (p : Setoid Sds) : Setoid Sds :=
  match op.optype with
  | .union =>
    if op.argv1 = star ∨ op.argv2 = some star then p
    else glue p (operand op.argv1 ∪ operand (op.argv2.getD []))
  | .split => if op.argv1 = star then p else cut p (operand op.argv1)

section

variable {x y : Sds} {p : Setoid Sds}

theorem act_union (hx : NameOk x) (hy : NameOk y) (hxs : x ≠ star) (hys : y ≠ star) :
    (unionOp x y).act p = glue p {x, y} := by
  simp only [UfsOp.act, unionOp, hxs, Option.some.injEq, hys, or_self, if_false, Option.getD_some,
    operand_name hx, operand_name hy]
  rw [singleton_union]

theorem act_union_star (h : x = star ∨ y = star) : (unionOp x y).act p = p := by
  simp [UfsOp.act, unionOp, h]

theorem act_split (hx : NameOk x) (hxs : x ≠ star) : (splitOp x).act p = cut p {x} := by
  simp [UfsOp.act, splitOp, hxs, operand_name hx]

theorem act_split_star : (splitOp star).act p = p := by
  simp [UfsOp.act, splitOp]

theorem exists_act_union (x y : Sds) : ∃ X, ∀ q, (unionOp x y).act q = glue q X := by
  by_cases h : x = star ∨ y = star
  · exact ⟨∅, fun q => by rw [act_union_star h, glue_empty]⟩
  · exact ⟨operand x ∪ operand y, fun q => by simp [UfsOp.act, unionOp, h]⟩

theorem exists_act_split (x : Sds) : ∃ T, ∀ q, (splitOp x).act q = cut q T := by
  by_cases h : x = star
  · exact ⟨∅, fun q => by rw [h, act_split_star, cut_eq_self (by simp)]⟩
  · exact ⟨operand x, fun q => by simp [UfsOp.act, splitOp, h]⟩

end

/-- An operand of a union over the elements `E`: an element or the marker. -/
def ArgOk (E : List Sds) (x : Sds) : Prop := x ∈ E ∨ x = star

/-- A single-element operation over the elements `E`. -/
inductive OpOk (E : List Sds) : UfsOp → Prop
  | union {x y : Sds} (hx : ArgOk E x) (hy : ArgOk E y) : OpOk E (unionOp x y)
  | split {x : Sds} (hx : x ∈ E) : OpOk E (splitOp x)

/-- The content `S` of a set with elements `E` denotes the partition `p`. The content that
`updateVerticeUfs` writes for a set of one element is cut short, so its name can be any. -/
inductive Shows (E : List Sds) : Sds → Setoid Sds → Prop
  | classes (cs : Classes) (h : cs.elements.Perm E) : Shows E cs.render cs.partition
  | single {x y : Sds} (hE : E = [x]) (hx : NameOk x) (hy : NameOk y) : Shows E y ⊥

/-! ## Content after an operation -/

section

variable {E : List Sds} {S : Sds} {p : Setoid Sds}

theorem Shows.name_ok (h : Shows E S p) (hx : x ∈ E) : NameOk x := by
  cases h with
  | classes cs h => exact cs.name_ok (h.mem_iff.mpr hx)
  | single hE hx' _ =>
    rw [hE, List.mem_singleton] at hx
    rwa [hx]

theorem star_name_ok : NameOk star := by decide

theorem ArgOk.name_ok (h : Shows E S p) (hx : ArgOk E x) : NameOk x := by
  rcases hx with hx | rfl
  · exact h.name_ok hx
  · exact star_name_ok

def Classes.one {y : Sds} (hy : NameOk y) : Classes where
  toList := [[y]]
  ne := by simp
  names := by simpa using hy
  nodup := by simp

theorem Classes.render_one (hy : NameOk y) : (Classes.one hy).render = y := by
  simp [Classes.one, Classes.render, UfsRedis.render]

theorem Classes.partition_one (hy : NameOk y) : (Classes.one hy).partition = ⊥ := by
  ext u v
  rw [Classes.partition_iff, Setoid.bot_def]
  constructor
  · rintro (h | ⟨c, hc, hu, hv⟩)
    · exact h
    simp only [Classes.one, List.mem_singleton] at hc
    subst hc
    rw [mem_singleton.mp hu, mem_singleton.mp hv]
  · exact .inl

theorem Shows.denote_eq (h : Shows E S p) : denote S = p := by
  cases h with
  | classes cs _ => exact cs.denote_render
  | single _ _ hy =>
    have := (Classes.one hy).denote_render
    rwa [Classes.render_one, Classes.partition_one] at this

theorem Shows.wellFormed (h : Shows E S p) : WellFormed S := by
  cases h with
  | classes cs _ => exact cs.wellFormed_render
  | single _ _ hy =>
    have := (Classes.one hy).wellFormed_render
    rwa [Classes.render_one] at this

theorem WellFormed.shows (h : WellFormed S) : Shows (elementsOf S) S (denote S) := by
  obtain ⟨cs, rfl, -⟩ := h.exists_classes
  rw [cs.elementsOf_render, cs.denote_render]
  exact .classes cs (.refl _)

variable {op op1 op2 : UfsOp} {a b a' b' : Sds}

theorem fromState_single (hx : NameOk x) (hy : NameOk y)
    (hop : OpOk [x] op) : updateVerticeUfsFromState y op y.length = .ok y := by
  have hr := Classes.render_one hy
  have hsplit : sdssplitlen y y.length '/' = .ok [y] := by
    have h := (Classes.one hy).split_render
    rw [hr] at h
    rw [sdssplitlen_length, h]
    simp [Classes.one]
  have hfind : findstr y x = .ok (decide (x = y)) := by
    have := findstr_class (Classes.one hy) (c := [y]) (by simp [Classes.one])
      (firstName_of_name hx.2.1) hx
    simpa using this
  cases hop with
  | @union a b ha hb =>
    by_cases hs : a = star ∨ b = star
    · by_cases has : a = star
      · simp [updateVerticeUfsFromState, unionOp, hsplit, has]
      · simp [updateVerticeUfsFromState, unionOp, hsplit, has, hs.resolve_left has]
    obtain ⟨has, hbs⟩ := not_or.mp hs
    obtain rfl : a = x := by simpa using ha.resolve_right has
    obtain rfl : b = a := by simpa using hb.resolve_right hbs
    by_cases hxy : b = y
    · subst hxy
      simp [updateVerticeUfsFromState, unionOp, hsplit, has, classScan, hfind, unionUfs]
    · simp [updateVerticeUfsFromState, unionOp, hsplit, has, classScan, hfind, hxy]
  | @split a ha =>
    obtain rfl : a = x := by simpa using ha
    by_cases has : a = star
    · simp [updateVerticeUfsFromState, splitOp, hsplit, has]
    by_cases hxy : a = y
    · subst hxy
      simp [updateVerticeUfsFromState, splitOp, hsplit, has, splitScan, hfind]
    · simp [updateVerticeUfsFromState, splitOp, hsplit, has, splitScan, hfind, hxy]

theorem act_bot (hx : NameOk x) (hop : OpOk [x] op) : op.act ⊥ = ⊥ := by
  cases hop with
  | @union a b ha hb =>
    by_cases hs : a = star ∨ b = star
    · exact act_union_star hs
    obtain ⟨has, hbs⟩ := not_or.mp hs
    obtain rfl : a = x := by simpa using ha.resolve_right has
    obtain rfl : b = a := by simpa using hb.resolve_right hbs
    rw [act_union hx hx has has, pair_eq_singleton, glue_singleton]
  | @split a ha =>
    obtain rfl : a = x := by simpa using ha
    by_cases has : a = star
    · rw [has, act_split_star]
    rw [act_split hx has]
    exact bot_unique cut_le

/-- `updateVerticeUfsFromState` acts on the content as the operation does on the partition. -/
theorem Shows.fromState (h : Shows E S p) (hop : OpOk E op) :
    ∃ S', updateVerticeUfsFromState S op S.length = .ok S' ∧ S'.length = S.length ∧
      (elementsOf S').Perm (elementsOf S) ∧ Shows E S' (op.act p) := by
  have hname : ∀ x, ArgOk E x → NameOk x := fun x hx => hx.name_ok h
  cases h with
  | single hE hx hy =>
    subst hE
    refine ⟨S, fromState_single hx hy hop, rfl, .refl _, ?_⟩
    rw [act_bot hx hop]
    exact .single rfl hx hy
  | classes cs hperm =>
    -- a changed content keeps the names, so also its length
    have done : ∀ {op : UfsOp} {q : Setoid Sds}, (∃ cs' : Classes,
        updateVerticeUfsFromState cs.render op cs.render.length = .ok cs'.render ∧
        cs'.elements.Perm cs.elements ∧ cs'.partition = q) → q = op.act cs.partition →
        ∃ S', updateVerticeUfsFromState cs.render op cs.render.length = .ok S' ∧
          S'.length = cs.render.length ∧ (elementsOf S').Perm (elementsOf cs.render) ∧
          Shows E S' (op.act cs.partition) := by
      rintro op q ⟨cs', hu, hp, hpart⟩ hq
      refine ⟨cs'.render, hu, Classes.length_render_eq hp, by simpa using hp, ?_⟩
      rw [← hq, ← hpart]
      exact .classes cs' (hp.trans hperm)
    cases hop with
    | @union a b ha hb =>
      by_cases hs : a = star ∨ b = star
      · exact done ⟨cs, fromState_union_star cs hs, .refl _, rfl⟩ (act_union_star hs).symm
      obtain ⟨has, hbs⟩ := not_or.mp hs
      exact done (fromState_union cs (firstName_of_name (hname a ha).2.1)
        (firstName_of_name (hname b hb).2.1) (hperm.mem_iff.mpr (ha.resolve_right has))
        (hperm.mem_iff.mpr (hb.resolve_right hbs)) has hbs)
        (act_union (hname a ha) (hname b hb) has hbs).symm
    | @split a ha =>
      by_cases has : a = star
      · subst has
        exact done ⟨cs, fromState_split_star cs, .refl _, rfl⟩ act_split_star.symm
      obtain ⟨c, hc, hac⟩ := mem_flatten.mp (hperm.mem_iff.mpr ha)
      have hsplit := fromState_split cs hc (t := []) (nodup_singleton a) (by simpa using hac)
        (by simpa using firstName_of_name (hname a (.inl ha)).2.1) (by simpa using has)
      have hset : {x | x ∈ [a]} = ({a} : Set Sds) := by ext; simp
      rw [hset, sdsjoin_singleton] at hsplit
      exact done hsplit (act_split (hname a (.inl ha)) has).symm

/-! ## The transformation -/

/-- What replaces the operand `s` of a union after `split s`: another member of the class of `s`,
or the marker if there is none. -/
def Replaces (E : List Sds) (p : Setoid Sds) (s z : Sds) : Prop :=
  (z = star ∧ ∀ u, p u s → u = s) ∨ (z ∈ E ∧ p z s ∧ z ≠ s)

/-- How `otUfs` changes the operands of `union a b` against `split s`. -/
inductive ArgsOt (E : List Sds) (p : Setoid Sds) (s : Sds) : Sds → Sds → Sds → Sds → Prop
  | keep {a b : Sds} (h : a = b ∨ a = star ∨ b = star ∨ (a ≠ s ∧ b ≠ s)) : ArgsOt E p s a b a b
  | left {b z : Sds} (hb : b ≠ s) (hbs : b ≠ star) (hs : s ≠ star) (hz : Replaces E p s z) :
    ArgsOt E p s s b z b
  | right {a z : Sds} (ha : a ≠ s) (has : a ≠ star) (hs : s ≠ star) (hz : Replaces E p s z) :
    ArgsOt E p s a s a z

/-- How `otUfs` with `OT_UNION` changes two single-element operations. -/
inductive Transform (E : List Sds) (p : Setoid Sds) : UfsOp → UfsOp → UfsOp → UfsOp → Prop
  | unions {a b c d : Sds} : Transform E p (unionOp a b) (unionOp c d) (unionOp a b) (unionOp c d)
  | splits {s t : Sds} : Transform E p (splitOp s) (splitOp t) (splitOp s) (splitOp t)
  | unionSplit {a b s a' b' : Sds} (h : ArgsOt E p s a b a' b') :
    Transform E p (unionOp a b) (splitOp s) (unionOp a' b') (splitOp s)
  | splitUnion {a b s a' b' : Sds} (h : ArgsOt E p s a b a' b') :
    Transform E p (splitOp s) (unionOp a b) (splitOp s) (unionOp a' b')

theorem isSet_eq_false (hx : NameOk x) : isSet x = false := by
  simpa [isSet] using hx.2.1

variable {s : Sds}

theorem cpltClass_replaces (cs : Classes) (hs : s ∈ cs.elements) :
    ∃ z, cpltClass cs.render (some s) .union = .ok z ∧ Replaces cs.elements cs.partition s z := by
  obtain ⟨c, hc, hsc⟩ := mem_flatten.mp hs
  have h := cpltClass_render .union hc (t := []) (nodup_singleton s) (by simpa using hsc)
    (.inl rfl)
  rw [sdsjoin_singleton] at h
  refine ⟨_, h, ?_⟩
  by_cases hall : ∀ x ∈ c, x ∈ [s]
  · rw [cpltResult, if_pos hall]
    refine .inl ⟨rfl, fun u hu => ?_⟩
    simpa using hall u ((cs.partition_iff_mem hc hsc).mp hu)
  rw [cpltResult, if_neg hall]
  rcases hf : c.find? (· ∉ [s]) with _ | z
  · refine absurd (fun x hx => ?_) hall
    have := find?_eq_none.mp hf x hx
    simpa using this
  have hz := mem_of_find?_eq_some hf
  have hzs : z ≠ s := by simpa using find?_some hf
  exact .inr ⟨cs.mem_elements hc hz, (cs.partition_iff_mem hc hsc).mpr hz, hzs⟩

theorem Shows.otUnionArgs (h : Shows E S p) (ha : ArgOk E a) (hb : ArgOk E b)
    (hs : s ∈ E) : ∃ a' b', otUnionArgs S a b s = .ok (a', b') ∧ ArgsOt E p s a b a' b' := by
  have hta := isSet_eq_false (ha.name_ok h)
  have htb := isSet_eq_false (hb.name_ok h)
  simp only [UfsRedis.otUnionArgs, hta, htb]
  by_cases hab : a = b
  · exact ⟨a, b, by simp [hab], .keep (.inl hab)⟩
  by_cases hst : a = star ∨ b = star
  · exact ⟨a, b, by simp [hst, hab], .keep (.inr (hst.imp id .inl))⟩
  have hst' := not_or.mp hst
  by_cases hsa : a = s ∨ b = s
  · -- two different elements: the set has more than one
    cases h with
    | single hE _ _ =>
      subst hE
      have hax : a = _ := mem_singleton.mp (ha.resolve_right hst'.1)
      have hbx : b = _ := mem_singleton.mp (hb.resolve_right hst'.2)
      exact absurd (hax.trans hbx.symm) hab
    | classes cs hperm =>
      obtain ⟨z, hz, hrep⟩ := cpltClass_replaces cs (hperm.mem_iff.mpr hs)
      have hrep : Replaces E cs.partition s z := hrep.imp_right fun h => ⟨hperm.mem_iff.mp h.1, h.2⟩
      by_cases has : a = s
      · subst has
        refine ⟨z, b, by simp [hab, hst', hz], ?_⟩
        exact .left (Ne.symm hab) hst'.2 hst'.1 hrep
      have hbs : b = s := hsa.resolve_left has
      subst hbs
      refine ⟨a, z, by simp [hab, hst', hz], ?_⟩
      exact .right hab hst'.1 hst'.2 hrep
  obtain ⟨has, hbs⟩ := not_or.mp hsa
  refine ⟨a, b, by simp [hab, hst', has, hbs], .keep (.inr (.inr (.inr ⟨has, hbs⟩)))⟩

theorem ArgsOt.argOk (h : ArgsOt E p s a b a' b') (ha : ArgOk E a)
    (hb : ArgOk E b) : ArgOk E a' ∧ ArgOk E b' := by
  cases h with
  | keep _ => exact ⟨ha, hb⟩
  | left _ _ _ hz => exact ⟨hz.elim (fun h => .inr h.1) fun h => .inl h.1, hb⟩
  | right _ _ _ hz => exact ⟨ha, hz.elim (fun h => .inr h.1) fun h => .inl h.1⟩

theorem Shows.otUfs (h : Shows E S p) (h1 : OpOk E op1) (h2 : OpOk E op2) :
    ∃ op1' op2', otUfs S op1 op2 .union = .ok (op1', op2') ∧ OpOk E op1' ∧ OpOk E op2' ∧
      Transform E p op1 op2 op1' op2' := by
  cases h1 with
  | @union a b ha hb =>
    cases h2 with
    | union hc hd => exact ⟨_, _, rfl, .union ha hb, .union hc hd, .unions⟩
    | split hs =>
      obtain ⟨a', b', hot, hargs⟩ := h.otUnionArgs ha hb hs
      obtain ⟨ha', hb'⟩ := hargs.argOk ha hb
      refine ⟨unionOp a' b', _, ?_, .union ha' hb', .split hs, .unionSplit hargs⟩
      simp [UfsRedis.otUfs, unionOp, splitOp, hot]
  | @split s hs =>
    cases h2 with
    | @union a b ha hb =>
      obtain ⟨a', b', hot, hargs⟩ := h.otUnionArgs ha hb hs
      obtain ⟨ha', hb'⟩ := hargs.argOk ha hb
      refine ⟨_, unionOp a' b', ?_, .split hs, .union ha' hb', .splitUnion hargs⟩
      simp [UfsRedis.otUfs, unionOp, splitOp, hot]
    | split ht => exact ⟨_, _, rfl, .split hs, .split ht, .splits⟩

/-! ## TP1 -/

theorem ArgsOt.square (hE : ∀ x ∈ E, NameOk x) (hstar : star ∉ E)
    (ha : ArgOk E a) (hb : ArgOk E b) (hs : s ∈ E) (h : ArgsOt E p s a b a' b') :
    (splitOp s).act ((unionOp a b).act p) = (unionOp a' b').act ((splitOp s).act p) := by
  have hname : ∀ x, ArgOk E x → NameOk x := fun x hx =>
    hx.elim (hE x) fun h => h ▸ star_name_ok
  have hss : s ≠ star := fun h => hstar (h ▸ hs)
  have hT : ∀ x ∈ ({s} : Set Sds), ∀ y ∈ ({s} : Set Sds), p x y := by
    rintro x rfl y rfl; exact p.refl' _
  -- `cut_glue` for the operand that is `s`, with the other operand outside
  have key : ∀ {c z : Sds}, ArgOk E c → c ≠ s → c ≠ star → Replaces E p s z →
      cut (glue p {s, c}) {s} = (unionOp z c).act (cut p {s}) := by
    intro c z hc hcs hcst hz
    rcases hz with ⟨rfl, halone⟩ | ⟨hzE, hzs, hzne⟩
    · rw [act_union_star (.inl rfl)]
      have hglue := cut_glue (p := p) (X := {s, c}) (Y := {c}) hT (by simpa using hcs) ?_
      · rw [hglue, glue_singleton]
      intro x hx
      simp only [Meets, Set.mem_insert_iff, mem_singleton_iff, exists_eq_or_imp,
        exists_eq_left]
      exact ⟨fun h => h.resolve_left fun hxs => hx (halone x hxs), .inr⟩
    have hzst : z ≠ star := fun h => hstar (h ▸ hzE)
    rw [act_union (hE z hzE) (hname c hc) hzst hcst]
    refine cut_glue hT ?_ ?_
    · rintro u (rfl | rfl)
      · exact hzne
      · exact hcs
    intro x _
    simp only [Meets, Set.mem_insert_iff, mem_singleton_iff, exists_eq_or_imp, exists_eq_left]
    exact or_congr_left ⟨fun h => p.trans' h (p.symm' hzs), fun h => p.trans' h hzs⟩
  rw [act_split (hE s hs) hss, act_split (hE s hs) hss]
  cases h with
  | keep h =>
    by_cases hst : a = star ∨ b = star
    · rw [act_union_star hst, act_union_star hst]
    obtain ⟨has, hbs⟩ := not_or.mp hst
    rw [act_union (hname a ha) (hname b hb) has hbs, act_union (hname a ha) (hname b hb) has hbs]
    by_cases hab : a = b
    · rw [hab, pair_eq_singleton, glue_singleton, glue_singleton]
    have hne : a ≠ s ∧ b ≠ s := by
      rcases h with h | h | h | h
      · exact absurd h hab
      · exact absurd h has
      · exact absurd h hbs
      · exact h
    refine cut_glue hT ?_ fun x _ => Iff.rfl
    rintro u (rfl | rfl)
    · exact hne.1
    · exact hne.2
  | left hbs hbst _ hz =>
    rw [act_union (hE a hs) (hname b hb) hss hbst]
    exact key hb hbs hbst hz
  | right has hast _ hz =>
    have hcomm : ∀ x y (q : Setoid Sds), (unionOp x y).act q = (unionOp y x).act q := by
      intro x y q
      simp [UfsOp.act, unionOp, or_comm (a := x = star), union_comm (operand x)]
    rw [act_union (hname a ha) (hE b hs) hast hss, pair_comm, hcomm]
    exact key ha has hast hz

/-- **TP1 on partitions.** Either operation and then the other one, transformed, give the same
partition. -/
theorem Transform.square (hE : ∀ x ∈ E, NameOk x) (hstar : star ∉ E)
    (h1 : OpOk E op1) (h2 : OpOk E op2) (h : Transform E p op1 op2 op1' op2') :
    op2'.act (op1.act p) = op1'.act (op2.act p) := by
  cases h with
  | @unions a b c d =>
    obtain ⟨X, hX⟩ := exists_act_union a b
    obtain ⟨Y, hY⟩ := exists_act_union c d
    rw [hX, hY, hX, hY, glue_comm]
  | @splits s t =>
    obtain ⟨X, hX⟩ := exists_act_split s
    obtain ⟨Y, hY⟩ := exists_act_split t
    rw [hX, hY, hX, hY, cut_comm]
  | unionSplit h =>
    cases h1 with | union ha hb => cases h2 with | split hs => exact h.square hE hstar ha hb hs
  | splitUnion h =>
    cases h2 with
    | union ha hb => cases h1 with | split hs => exact (h.square hE hstar ha hb hs).symm

end

/-- **TP1 of `otUfs` with `OT_UNION`** for single-element operations: both orders give well-formed
contents with the same names and the same partition, and the transformed operations are again
single-element operations. -/
theorem otUfs_tp1 {S : Sds} (hS : WellFormed S) (hstar : star ∉ elementsOf S) {op1 op2 : UfsOp}
    (h1 : OpOk (elementsOf S) op1) (h2 : OpOk (elementsOf S) op2) :
    ∃ op1' op2' S1 S2 S12 S21, otUfs S op1 op2 .union = .ok (op1', op2') ∧
      OpOk (elementsOf S) op1' ∧ OpOk (elementsOf S) op2' ∧
      updateVerticeUfsFromState S op1 S.length = .ok S1 ∧
      updateVerticeUfsFromState S1 op2' S1.length = .ok S12 ∧
      updateVerticeUfsFromState S op2 S.length = .ok S2 ∧
      updateVerticeUfsFromState S2 op1' S2.length = .ok S21 ∧
      WellFormed S12 ∧ WellFormed S21 ∧ (elementsOf S12).Perm (elementsOf S) ∧
      (elementsOf S21).Perm (elementsOf S) ∧ denote S12 = denote S21 := by
  have h := hS.shows
  obtain ⟨op1', op2', hot, h1', h2', htr⟩ := h.otUfs h1 h2
  obtain ⟨S1, hu1, -, he1, hs1⟩ := h.fromState h1
  obtain ⟨S12, hu12, -, he12, hs12⟩ := hs1.fromState h2'
  obtain ⟨S2, hu2, -, he2, hs2⟩ := h.fromState h2
  obtain ⟨S21, hu21, -, he21, hs21⟩ := hs2.fromState h1'
  refine ⟨op1', op2', S1, S2, S12, S21, hot, h1', h2', hu1, hu12, hu2, hu21, hs12.wellFormed,
    hs21.wellFormed, he12.trans he1, he21.trans he2, ?_⟩
  rw [hs12.denote_eq, hs21.denote_eq]
  exact htr.square (fun x hx => h.name_ok hx) hstar h1 h2

/-- A union against the split of its operand, in `a,b/c`. -/
theorem otUfs_tp1_example : ∃ op1' op2' S1 S2 S12 S21,
      otUfs "a,b/c".toList (unionOp ['a'] ['c']) (splitOp ['a']) .union = .ok (op1', op2') ∧
      OpOk (elementsOf "a,b/c".toList) op1' ∧ OpOk (elementsOf "a,b/c".toList) op2' ∧
      updateVerticeUfsFromState "a,b/c".toList (unionOp ['a'] ['c']) "a,b/c".toList.length =
        .ok S1 ∧
      updateVerticeUfsFromState S1 op2' S1.length = .ok S12 ∧
      updateVerticeUfsFromState "a,b/c".toList (splitOp ['a']) "a,b/c".toList.length = .ok S2 ∧
      updateVerticeUfsFromState S2 op1' S2.length = .ok S21 ∧
      WellFormed S12 ∧ WellFormed S21 ∧ (elementsOf S12).Perm (elementsOf "a,b/c".toList) ∧
      (elementsOf S21).Perm (elementsOf "a,b/c".toList) ∧ denote S12 = denote S21 :=
  otUfs_tp1 (by decide) (by decide) (.union (.inl (by decide)) (.inl (by decide)))
    (.split (by decide))

end UfsRedis

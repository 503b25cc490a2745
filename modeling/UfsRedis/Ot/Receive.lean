import UfsRedis.Ot.Sound

/-!
# A new operation on the grid

`Grid.receive`: an operation from the other side, put at the vertice of its context, is transformed
along the operations that it has not seen, and the vertices are a grid again. `Grid.addLast`: so is
one put at the last vertice.
-/

namespace UfsRedis

open Lib Coord

variable {E os : List Sds} {ℓ n N j fuel : Nat} {V V' : Space} {H : History} {M M' : Coord → Prop}
  {A A' : Cells} {s : Side} {r : OpRec} {S : Sds} {op : UfsOp}

theorem Layout.congr (h : Layout V H M A) (hM : ∀ c, M' c ↔ M c) : Layout V H M' A := by
  rwa [funext fun c => propext (hM c)]

theorem Sound.congr (h : Sound E ℓ H M A) (hM : ∀ c, M' c ↔ M c) : Sound E ℓ H M' A := by
  rwa [funext fun c => propext (hM c)]

/-! ## Adding a state -/

variable {u i : Nat} {oid : Sds} {c : Coord}

theorem Space.contentAt_addOp_lt (hi : i < V.length) :
    (addOp V u s op oid S).contentAt i = V.contentAt i := by
  rw [addOp, contentAt_setEdge, contentAt_append_lt hi]

theorem Space.contentAt_addOp_length : (addOp V u s op oid S).contentAt V.length = some S := by
  rw [addOp, contentAt_setEdge, contentAt_append_length]
  rfl

theorem Space.length_addOp : (addOp V u s op oid S).length = V.length + 1 := by
  rw [addOp, length_setEdge, List.length_append, List.length_singleton]

theorem Space.edgeAt_addOp_lt (hu : u < V.length) (hi : i < V.length)
    (t : Side) : (addOp V u s op oid S).edgeAt i t =
      if i = u ∧ t = s then some ⟨op, oid, V.length⟩ else V.edgeAt i t := by
  rw [addOp, edgeAt_setEdge (by rw [List.length_append]; omega), edgeAt_append_lt hi]

theorem Space.edgeAt_addOp_length (hu : u < V.length) (t : Side) :
    (addOp V u s op oid S).edgeAt V.length t = none := by
  rw [addOp, edgeAt_setEdge (by rw [List.length_append]; omega), if_neg (by omega),
    edgeAt_append_length, Vertice.edge_create]

theorem Layout.addOp (h : Layout V H M A) (op : UfsOp) (he : Fresh M (c.step s)) (hc : M c)
    (honly : ∀ d t, M d → d.step t = c.step s → d = c ∧ t = s) :
    Layout (addOp V (A.ix c) s op (H.oid s (c.get s)) S) H (fun d => M d ∨ d = c.step s)
      (A.insert (c.step s) V.length S fun _ => op) := by
  refine h.insert he Space.length_addOp (fun i hi => Space.contentAt_addOp_lt hi)
    Space.contentAt_addOp_length (Space.edgeAt_addOp_length (h.ix_lt hc)) fun d t hd => ?_
  rw [Space.edgeAt_addOp_lt (h.ix_lt hc) (h.ix_lt hd)]
  by_cases hdt : d.step t = c.step s
  · obtain ⟨rfl, rfl⟩ := honly d t hd hdt
    simp
  rw [if_neg hdt, if_neg]
  rintro ⟨hix, rfl⟩
  exact hdt (by rw [h.inj d c hd hc hix])

theorem step_eq_corner (h : d.step t = (c.step s).step s.flip) :
    (t = s ∧ d = c.step s.flip) ∨ (t = s.flip ∧ d = c.step s) := by
  rcases s.eq_or_eq_flip t with rfl | rfl
  · rw [step_comm] at h
    exact .inl ⟨rfl, step_inj h⟩
  · exact .inr ⟨rfl, step_inj h⟩

theorem Layout.addCorner (h : Layout V H M A) (op1 op2 : UfsOp)
    (he : Fresh M ((c.step s).step s.flip)) (hs : M (c.step s)) (hf : M (c.step s.flip)) :
    Layout ((UfsRedis.addOp V (A.ix (c.step s.flip)) s op2 (H.oid s (c.get s)) S).setEdge
        (A.ix (c.step s)) s.flip ⟨op1, H.oid s.flip (c.get s.flip), V.length⟩) H
      (fun d => M d ∨ d = (c.step s).step s.flip)
      (A.insert ((c.step s).step s.flip) V.length S fun t => if t = s then op2 else op1) := by
  have hlen : (UfsRedis.addOp V (A.ix (c.step s.flip)) s op2 (H.oid s (c.get s)) S).length =
      V.length + 1 := Space.length_addOp
  have hlt := h.ix_lt hs
  refine h.insert he (by rw [Space.length_setEdge, hlen]) (fun i hi => ?_) ?_ (fun t => ?_)
    fun d t hd => ?_
  · rw [Space.contentAt_setEdge, Space.contentAt_addOp_lt hi]
  · rw [Space.contentAt_setEdge, Space.contentAt_addOp_length]
  · rw [Space.edgeAt_setEdge (by omega), if_neg (by omega), Space.edgeAt_addOp_length (h.ix_lt hf)]
  rw [Space.edgeAt_setEdge (by omega), Space.edgeAt_addOp_lt (h.ix_lt hf) (h.ix_lt hd)]
  by_cases hdt : d.step t = (c.step s).step s.flip
  · rw [if_pos hdt]
    rcases step_eq_corner hdt with ⟨rfl, rfl⟩ | ⟨rfl, rfl⟩ <;> simp
  rw [if_neg hdt, if_neg, if_neg]
  · rintro ⟨hix, rfl⟩
    exact hdt (by rw [h.inj d _ hd hf hix, step_comm])
  rintro ⟨hix, rfl⟩
  exact hdt (by rw [h.inj d _ hd hs hix])

/-! ## The loop -/

/-- The state of the loop of `receive`: the operation `r`, number `n` of side `s`, has been
transformed along the first `j` operations of the other side, of `N`. -/
structure Walk (E : List Sds) (ℓ : Nat) (s : Side) (n N : Nat) (r : OpRec) (H : History) (V : Space)
    (M : Coord → Prop) (A : Cells) (j : Nat) (os : List Sds) : Prop where
  layout : Layout V H M A
  sound : Sound E ℓ H M A
  rec_eq : (H s)[n]? = some r
  ctx_le : r.ctx ≤ j
  length : (H s.flip).length = N
  flips : ∀ (i : Nat) (r' : OpRec), (H s.flip)[i]? = some r' → r'.ctx ≤ n
  new : M (mk' s (n + 1) j)
  col : ∀ i, j ≤ i → (M (mk' s n i) ↔ i ≤ N)
  above : ∀ i, j < i → ¬ M (mk' s (n + 1) i)
  right : ∀ i, ¬ M (mk' s (n + 2) i)
  from_eq : updateVerticeUfsFromState (A.content (mk' s n j)) (A.op (mk' s n j) s) ℓ =
    .ok (A.content (mk' s (n + 1) j))
  oids : os.Perm (H.oids (mk' s n j))

theorem Sound.fromState (h : Sound E ℓ H M A) (hc : M c) (hop : OpOk E op) :
    ∃ S, updateVerticeUfsFromState (A.content c) op ℓ = .ok S ∧ S.length = ℓ ∧
      Shows E S (op.act (denote (A.content c))) := by
  obtain ⟨S, hu, hlen, -, hS⟩ := (h.shows c hc).fromState hop
  rw [h.length c hc] at hu hlen
  exact ⟨S, hu, hlen, hS⟩

theorem Shows.self (h : Shows E S p) : Shows E S (denote S) := by
  rwa [h.denote_eq]

section

variable (w : Walk E ℓ s n N r H V M A j os)
include w

theorem Walk.fresh : Fresh M (mk' s (n + 1) (j + 1)) := by
  refine ⟨w.above _ (Nat.lt_succ_self j), fun t => ?_⟩
  rcases s.eq_or_eq_flip t with rfl | rfl
  · rw [step_mk']; exact w.right _
  · rw [step_flip_mk']; exact w.above _ (by omega)

theorem Walk.sound_corner (hj : j < N)
    (htr : Transform E (denote (A.content (mk' s n j))) (A.op (mk' s n j) s.flip)
      (A.op (mk' s n j) s) op1 op2) (h1 : OpOk E op1) (h2 : OpOk E op2) (hlen : S.length = ℓ)
    (hS : Shows E S (op2.act (denote (A.content (mk' s n (j + 1)))))) :
    Sound E ℓ H (fun d => M d ∨ d = mk' s (n + 1) (j + 1))
      (A.insert (mk' s (n + 1) (j + 1)) i S fun t => if t = s then op2 else op1) := by
  have hc : M (mk' s n j) := (w.col j (le_refl j)).mpr (by omega)
  have hf : M ((mk' s n j).step s.flip) := by
    rw [step_flip_mk']; exact (w.col _ (by omega)).mpr hj
  have hs : M ((mk' s n j).step s) := by rw [step_mk']; exact w.new
  have es := w.sound.edge _ s hc hs
  have ef := w.sound.edge _ s.flip hc hf
  have hcorner : mk' s (n + 1) (j + 1) = ((mk' s n j).step s).step s.flip := by
    rw [step_mk', step_flip_mk']
  refine w.sound.insert w.fresh hS.self hlen (fun d t hd hdt => ?_) fun d t hd _ _ hdt => ?_
  · rw [hcorner] at hdt
    rcases step_eq_corner hdt with ⟨rfl, rfl⟩ | ⟨rfl, rfl⟩
    · -- the new operation, one step further
      rw [if_pos rfl]
      refine ⟨h2, fun r' hr' => ?_, fun r' hr' hctx => ?_, fun _ => ?_⟩
      · rw [get_step_flip', get_mk'_self] at hr'
        exact (es.kind r' (by rwa [get_mk'_self])).trans htr.symm.sameKind
      · have := w.ctx_le
        rw [get_step_flip', get_mk'_self, w.rec_eq, Option.some.injEq] at hr'
        rw [get_step_self, get_mk'_flip, ← hr'] at hctx
        omega
      rw [step_flip_mk']
      exact hS.denote_eq
    -- the operation of the other side, after the new one
    rw [if_neg (Side.flip_ne s)]
    refine ⟨h1, fun r' hr' => ?_, fun r' hr' hctx => ?_, fun hstar => ?_⟩
    · rw [get_step_flip, get_mk'_flip] at hr'
      exact (ef.kind r' (by rwa [get_mk'_flip])).trans htr.sameKind
    · have := w.flips _ _ hr'
      rw [Side.flip_flip, get_step_self, get_mk'_self] at hctx
      omega
    have hE : ∀ x ∈ E, NameOk x := fun x hx => hS.name_ok hx
    rw [hS.denote_eq, ← step_flip_mk', ef.act hstar, es.act hstar]
    exact htr.square hE hstar ef.ok es.ok
  have hd' : d = mk' s n j := by
    rw [hcorner] at hdt
    rcases s.eq_or_eq_flip t with rfl | rfl
    · exact step_inj (step_inj hdt)
    rw [Side.flip_flip, step_comm] at hdt
    exact step_inj (step_inj hdt)
  subst hd'
  rcases s.eq_or_eq_flip t with rfl | rfl
  · rw [if_pos rfl, if_neg (Side.flip_ne t)]
    exact htr.symm
  rw [Side.flip_flip, if_pos rfl, if_neg (Side.flip_ne s)]
  exact htr

/-- One round of the loop. -/
theorem Walk.step (hj : j < N) (fuel : Nat) : ∃ V' A' os',
    otLoop ℓ s (fuel + 1) V (A.ix (mk' s n j)) (A.ix (mk' s (n + 1) j)) (ctxText os) =
      otLoop ℓ s fuel V' (A'.ix (mk' s n (j + 1))) (A'.ix (mk' s (n + 1) (j + 1))) (ctxText os') ∧
    Walk E ℓ s n N r H V' (fun d => M d ∨ d = mk' s (n + 1) (j + 1)) A' (j + 1) os' ∧
    A.Extends M A' := by
  have hc : M (mk' s n j) := (w.col j (le_refl j)).mpr (by omega)
  have hul : M (mk' s n (j + 1)) := (w.col _ (by omega)).mpr hj
  have hf : M ((mk' s n j).step s.flip) := by rw [step_flip_mk']; exact hul
  have hs : M ((mk' s n j).step s) := by rw [step_mk']; exact w.new
  obtain ⟨vu, hvu, hcontent, hsome, -⟩ := w.layout.vertice hc
  obtain ⟨vul, hvul, hcontent', -, -⟩ := w.layout.vertice hul
  have es := w.sound.edge _ s hc hs
  have ef := w.sound.edge _ s.flip hc hf
  obtain ⟨op1, op2, hot, h1, h2, htr⟩ := (w.sound.shows _ hc).otUfs ef.ok es.ok
  obtain ⟨S, hu, hlen, hS⟩ := w.sound.fromState hul h2
  have hfresh := w.fresh
  have hcorner : mk' s (n + 1) (j + 1) = ((mk' s n j).step s).step s.flip := by
    rw [step_mk', step_flip_mk']
  have hlayout := w.layout.addCorner (S := S) op1 op2 (hcorner ▸ hfresh) hs hf
  rw [← hcorner, step_mk', step_flip_mk', get_mk'_self, get_mk'_flip] at hlayout
  have hext : A.Extends M (A.insert (mk' s (n + 1) (j + 1)) V.length S
      fun t => if t = s then op2 else op1) := hfresh.extends
  refine ⟨_, _, os ++ [H.oid s.flip j], ?_, ⟨hlayout,
    w.sound_corner hj htr h1 h2 hlen hS, w.rec_eq, ?_, w.length, w.flips, .inr rfl, ?_, ?_, ?_,
    ?_, ?_⟩, hext⟩
  · rw [otLoop, hvu, ok_bind, hsome s.flip hf]
    simp [hsome s hs, hcontent, hot, step_flip_mk', hvul, hcontent', hu, catOid_ctxText,
      get_mk'_self, get_mk'_flip, hext.ix _ hul]
  · have := w.ctx_le
    omega
  · intro i hi
    rw [← w.col i (by omega)]
    refine or_iff_left fun h => ?_
    have := congrArg (get · s) h
    simp at this
  · intro i hi
    rw [not_or]
    refine ⟨w.above i (by omega), fun h => ?_⟩
    have := congrArg (get · s.flip) h
    simp at this
    omega
  · intro i
    rw [not_or]
    refine ⟨w.right i, fun h => ?_⟩
    have := congrArg (get · s) h
    simp at this
  · rw [Cells.content_insert_self, hext.content _ hul, Cells.op_insert (step_mk' ..), if_pos rfl]
    exact hu
  have := History.oids_step (H := H) (c := mk' s n j) (s := s.flip)
    (by rw [get_mk'_flip, w.length]; exact hj)
  rw [step_flip_mk', get_mk'_flip] at this
  exact (w.oids.append_right _).trans this.symm

end

theorem Walk.rounds_lt (w : Walk E ℓ s n N r H V M A j os) (hj : j ≤ N) : N < j + V.length := by
  have hix : ∀ i, j ≤ i → i ≤ N → i - j ≤ A.ix (mk' s n i) := by
    intro i hi
    induction i, hi using Nat.le_induction with
    | base => omega
    | succ i hi ih =>
      intro hle
      have := w.layout.lt (mk' s n i) s.flip ((w.col i hi).mpr (by omega))
        (by rw [step_flip_mk']; exact (w.col _ (by omega)).mpr hle)
      rw [step_flip_mk'] at this
      omega
  have hlt := w.layout.ix_lt ((w.col N hj).mpr (le_refl N))
  have := hix N hj (le_refl N)
  omega

/-- All rounds, by induction over those that are left. -/
theorem Walk.run (w : Walk E ℓ s n N r H V M A j os) (hj : j ≤ N) (hf : N < j + fuel) :
    ∃ V' M' A' os', otLoop ℓ s fuel V (A.ix (mk' s n j)) (A.ix (mk' s (n + 1) j)) (ctxText os) =
        .ok (V', A.ix (mk' s n N), ctxText os') ∧
      Walk E ℓ s n N r H V' M' A' N os' ∧ A.Extends M A' ∧
      ∀ d, M' d ↔ M d ∨ (d.get s = n + 1 ∧ j < d.get s.flip ∧ d.get s.flip ≤ N) := by
  induction fuel generalizing V M A j os with
  | zero => omega
  | succ fuel ih =>
    rcases Nat.lt_or_eq_of_le hj with hlt | rfl
    · obtain ⟨V1, A1, os1, heq, w1, hext1⟩ := w.step hlt fuel
      obtain ⟨V', M', A', os', hrun, w', hext', hM'⟩ := ih w1 hlt (by omega)
      have hlast : M (mk' s n N) := (w.col N (by omega)).mpr (le_refl N)
      refine ⟨V', M', A', os', ?_, w', hext1.trans (fun c hc => .inl hc) hext', fun d => ?_⟩
      · rw [heq, hrun, hext1.ix _ hlast]
      rw [hM', or_assoc]
      refine or_congr_right ⟨?_, fun ⟨h1, h2, h3⟩ => ?_⟩
      · rintro (rfl | ⟨h1, h2, h3⟩)
        · rw [get_mk'_self, get_mk'_flip]
          omega
        · omega
      rcases Nat.lt_or_eq_of_le (Nat.succ_le_of_lt h2) with h | h
      · exact .inr ⟨h1, h, h3⟩
      · exact .inl (ext_get s (by rw [h1, get_mk'_self]) (by rw [← h, get_mk'_flip]))
    have hu : M (mk' s n j) := (w.col j (le_refl j)).mpr (le_refl j)
    obtain ⟨vu, hvu, -, -, hnone⟩ := w.layout.vertice hu
    refine ⟨V, M, A, os, ?_, w, .refl M A, fun d => ?_⟩
    · rw [otLoop, hvu, ok_bind, hnone s.flip]
      rw [step_flip_mk', w.col _ (by omega)]
      omega
    · exact (or_iff_left (by omega)).symm

/-! ## Whole grids -/

/-- The state space `V` holds a sound grid of the history `H`. -/
structure Grid (E : List Sds) (ℓ : Nat) (V : Space) (H : History) (A : Cells) : Prop where
  stair : Stair H.ctxs
  layout : Layout V H (Mem H.ctxs) A
  sound : Sound E ℓ H (Mem H.ctxs) A

theorem last_eq (H : History) (s : Side) : last H.ctxs = mk' s (H s).length (H s.flip).length :=
  ext_get s (by simp) (by simp)

theorem fresh_mk' (H : History) (s : Side) (k : Nat) :
    Fresh (Mem H.ctxs) (mk' s ((H s).length + 1) k) := by
  have hno : ∀ a b, (H s).length < a → ¬ Mem H.ctxs (mk' s a b) := fun a b ha h => by
    have := mem_le h s
    rw [get_mk'_self] at this
    omega
  refine ⟨hno _ _ (by omega), fun t => ?_⟩
  rcases s.eq_or_eq_flip t with rfl | rfl
  · rw [step_mk']; exact hno _ _ (by omega)
  · rw [step_flip_mk']; exact hno _ _ (by omega)

variable (g : Grid E ℓ V H A)
include g

theorem Grid.mem_last : Mem H.ctxs (last H.ctxs) := Lib.mem_last g.stair

theorem Grid.stair_push (hd : Mem H.ctxs (mk' s (H s).length r.ctx)) : Stair (H.push s r).ctxs := by
  rw [History.ctxs_push]
  refine g.stair.push ?_ fun i hi => ?_
  · simpa using (hd s.flip).1
  have := (hd s).2 i
  rw [get_mk'_self, get_mk'_flip] at this
  exact this (by simpa using hi)

theorem Grid.mem_push_iff (hd : Mem H.ctxs (mk' s (H s).length r.ctx)) (c : Coord) :
    Mem (H.push s r).ctxs c ↔ Mem H.ctxs c ∨
      (c.get s = (H s).length + 1 ∧ r.ctx ≤ c.get s.flip ∧ c.get s.flip ≤ (H s.flip).length) := by
  rw [History.ctxs_push, mem_push g.stair fun i hi => ?_, History.length_ctxs, History.length_ctxs]
  have := (hd s).2 i
  rw [get_mk'_self, get_mk'_flip] at this
  exact this (by simpa using hi)

theorem Grid.edgesKept (g' : Grid E ℓ V' (H.push s r) A')
    (hd : Mem H.ctxs (mk' s (H s).length r.ctx)) (hext : A.Extends (Mem H.ctxs) A') :
    Space.EdgesKept V V' :=
  g.layout.edgesKept g'.layout (fun c hc => (g.mem_push_iff hd c).mpr (.inl hc)) hext
    fun _ _ hc => History.oid_push_lt (mem_step_lt hc)

section

variable (hop : OpOk E r.op) (hd : Mem H.ctxs (mk' s (H s).length r.ctx)) (hlen : S.length = ℓ)
include hop hd hlen

theorem Grid.add (hS : Shows E S (r.op.act (denote (A.content (mk' s (H s).length r.ctx))))) :
    Layout (addOp V (A.ix (mk' s (H s).length r.ctx)) s r.op r.oid S) (H.push s r)
      (fun c => Mem H.ctxs c ∨ c = mk' s ((H s).length + 1) r.ctx)
      (A.insert (mk' s ((H s).length + 1) r.ctx) V.length S fun _ => r.op) ∧
    Sound E ℓ (H.push s r) (fun c => Mem H.ctxs c ∨ c = mk' s ((H s).length + 1) r.ctx)
      (A.insert (mk' s ((H s).length + 1) r.ctx) i S fun _ => r.op) := by
  have hfresh := fresh_mk' H s r.ctx
  have honly : ∀ d t, Mem H.ctxs d → d.step t = mk' s ((H s).length + 1) r.ctx →
      d = mk' s (H s).length r.ctx ∧ t = s := by
    intro d t hdm hdt
    rcases s.eq_or_eq_flip t with rfl | rfl
    · exact ⟨step_inj (hdt.trans (step_mk' ..).symm), rfl⟩
    have h1 := mem_le hdm s
    have h2 := congrArg (get · s) hdt
    rw [get_step_flip', get_mk'_self] at h2
    omega
  have hstep : (mk' s (H s).length r.ctx).step s = mk' s ((H s).length + 1) r.ctx := step_mk' ..
  constructor
  · have := (g.layout.push s r).addOp (S := S) r.op (hstep ▸ hfresh) hd
      (by rw [hstep]; exact honly)
    rwa [hstep, get_mk'_self, History.oid_push_length] at this
  refine (g.sound.push s r).insert hfresh hS.self hlen (fun d t hdm hdt => ?_)
    fun d t hdm ht hf hdt => ?_
  · obtain ⟨rfl, rfl⟩ := honly d t hdm hdt
    have hrec : ∀ r', (H.push t r t)[(mk' t (H t).length r.ctx).get t]? = some r' → r = r' := by
      intro r' hr'
      simpa using hr'
    refine ⟨hop, fun r' hr' => ?_, fun r' hr' _ => ?_, fun _ => hS.denote_eq⟩
    · rw [hrec r' hr']
      exact .refl _
    · rw [hrec r' hr']
  -- a square needs both of its sides, and only one edge leads to the new vertice
  obtain ⟨h1, h2⟩ := honly _ _ ht hdt
  obtain ⟨h3, h4⟩ := honly _ _ hf (by rw [step_comm]; exact hdt)
  exact absurd (h2.trans h4.symm) (Side.flip_ne t)

theorem Grid.walk
    (hu : updateVerticeUfsFromState (A.content (mk' s (H s).length r.ctx)) r.op ℓ = .ok S)
    (hS : Shows E S (r.op.act (denote (A.content (mk' s (H s).length r.ctx)))))
    (hos : os.Perm (H.oids (mk' s (H s).length r.ctx))) :
    Walk E ℓ s (H s).length (H s.flip).length r (H.push s r)
      (addOp V (A.ix (mk' s (H s).length r.ctx)) s r.op r.oid S)
      (fun c => Mem H.ctxs c ∨ c = mk' s ((H s).length + 1) r.ctx)
      (A.insert (mk' s ((H s).length + 1) r.ctx) V.length S fun _ => r.op) r.ctx os := by
  obtain ⟨hlayout, hsound⟩ := g.add (i := V.length) hop hd hlen hS
  have hfresh := fresh_mk' H s r.ctx
  have hext : A.Extends (Mem H.ctxs) (A.insert (mk' s ((H s).length + 1) r.ctx) V.length S
      fun _ => r.op) := hfresh.extends
  have hmem : ∀ a b, (H s).length < a → ¬ Mem H.ctxs (mk' s a b) := fun a b ha h => by
    have := mem_le h s
    rw [get_mk'_self] at this
    omega
  refine ⟨hlayout, hsound, by simp, le_rfl, by simp, fun i r' hr' => ?_, .inr rfl,
    fun i hi => ?_, fun i hi => ?_, fun i => ?_, ?_, ?_⟩
  · rw [History.push_flip] at hr'
    have hlt := (List.getElem?_eq_some_iff.mp hr').1
    have := g.stair.bound s.flip i (by simpa using hlt)
    rwa [ctxAt_eq hr', Side.flip_flip, History.length_ctxs] at this
  · -- the states without the operation, from its context on, all exist
    rw [or_iff_left (fun h => by have := congrArg (get · s) h; simp at this)]
    constructor
    · intro h
      simpa using mem_le h s.flip
    intro hi' t
    rcases s.eq_or_eq_flip t with rfl | rfl
    · rw [get_mk'_self, get_mk'_flip, History.length_ctxs]
      refine ⟨le_rfl, fun k hk => ?_⟩
      have := (hd t).2 k (by rwa [get_mk'_self])
      rw [get_mk'_flip] at this
      omega
    rw [get_mk'_flip, Side.flip_flip, get_mk'_self, History.length_ctxs]
    refine ⟨hi', fun k hk => ?_⟩
    have := g.stair.bound s.flip k (by rw [History.length_ctxs]; omega)
    rwa [Side.flip_flip, History.length_ctxs] at this
  · rw [not_or]
    refine ⟨hmem _ _ (by omega), fun h => ?_⟩
    have := congrArg (get · s.flip) h
    simp at this
    omega
  · rw [not_or]
    refine ⟨hmem _ _ (by omega), fun h => ?_⟩
    have := congrArg (get · s) h
    simp at this
  · rw [hext.content _ hd, Cells.op_insert (step_mk' ..), Cells.content_insert_self]
    exact hu
  · rwa [History.oids_push (mem_le hd)]

end

/-- **An operation arrives.** It is found a place, transformed to the last vertice, and the space is
again a grid, of one more operation. -/
theorem Grid.receive (hok : H.OidsOk) (hop : OpOk E r.op)
    (hd : Mem H.ctxs (mk' s (H s).length r.ctx))
    (hos : os.Perm (H.oids (mk' s (H s).length r.ctx))) : ∃ V' A' os',
      receive V ℓ s r.op r.op r.oid (ctxText os) = .ok (V', A.ix (last H.ctxs), ctxText os') ∧
      Grid E ℓ V' (H.push s r) A' ∧ A.Extends (Mem H.ctxs) A' ∧ os'.Perm (H.oids (last H.ctxs)) ∧
      updateVerticeUfsFromState (A.content (last H.ctxs)) (A'.op (last H.ctxs) s) ℓ =
        .ok (A'.content (last (H.push s r).ctxs)) := by
  obtain ⟨v, hv, hcontent, -, -⟩ := g.layout.vertice hd
  obtain ⟨S, hu, hlen, hS⟩ := g.sound.fromState hd hop
  have hfresh := fresh_mk' H s r.ctx
  have hext : A.Extends (Mem H.ctxs) (A.insert (mk' s ((H s).length + 1) r.ctx) V.length S
      fun _ => r.op) := hfresh.extends
  have hk : r.ctx ≤ (H s.flip).length := by simpa using mem_le hd s.flip
  have hlast := g.mem_last
  have hlasteq := last_eq H s
  have w := g.walk hop hd hlen hu hS hos
  have hfuel := w.rounds_lt hk
  rw [Space.length_addOp] at hfuel
  obtain ⟨V', M', A', os', hrun, w', hext', hM'⟩ := w.run hk hfuel
  have hmem : ∀ c, Mem (H.push s r).ctxs c ↔ M' c := by
    intro c
    rw [g.mem_push_iff hd, hM', or_assoc]
    refine or_congr_right ⟨fun ⟨h1, h2, h3⟩ => ?_, ?_⟩
    · rcases Nat.lt_or_eq_of_le h2 with h | h
      · exact .inr ⟨h1, h, h3⟩
      · exact .inl (ext_get s (by rw [h1, get_mk'_self]) (by rw [← h, get_mk'_flip]))
    rintro (rfl | ⟨h1, h2, h3⟩)
    · rw [get_mk'_self, get_mk'_flip]
      exact ⟨rfl, le_rfl, hk⟩
    · exact ⟨h1, by omega, h3⟩
  have hfull : A.Extends (Mem H.ctxs) A' := hext.trans (fun c hc => .inl hc) hext'
  refine ⟨V', A', os', ?_, ⟨g.stair_push hd, w'.layout.congr hmem, w'.sound.congr hmem⟩, hfull,
    ?_, ?_⟩
  · rw [UfsRedis.receive, g.layout.locateCtx g.stair hok hd hos]
    simp only [ok_bind, deref_some, hv, hcontent, hu]
    rw [hext.ix _ hd, Cells.ix_insert_self] at hrun
    rw [hrun, ← hlasteq, hext.ix _ hlast]
  · have := w'.oids
    rwa [← hlasteq, History.oids_push (mem_le hlast)] at this
  have := w'.from_eq
  rw [← hlasteq, hfull.content _ hlast] at this
  rw [this, last_eq (H.push s r) s, History.push_self, History.push_flip, List.length_append,
    List.length_singleton]

omit g in
theorem Grid.last_edge (g' : Grid E ℓ V' (H.push s r) A') (g : Grid E ℓ V H A)
    (hd : Mem H.ctxs (mk' s (H s).length r.ctx)) :
    OpOk E (A'.op (last H.ctxs) s) ∧ SameKind r.op (A'.op (last H.ctxs) s) ∧
      ∃ v i, V'.vertice (A'.ix (last H.ctxs)) = .ok v ∧
        v.edge s = some ⟨A'.op (last H.ctxs) s, r.oid, i⟩ := by
  have hlast := last_eq H s
  have hk : r.ctx ≤ (H s.flip).length := by simpa using mem_le hd s.flip
  have hmem : Mem (H.push s r).ctxs (last H.ctxs) := (g.mem_push_iff hd _).mpr (.inl g.mem_last)
  have hstep : Mem (H.push s r).ctxs ((last H.ctxs).step s) := by
    refine (g.mem_push_iff hd _).mpr (.inr ?_)
    rw [hlast, step_mk', get_mk'_self, get_mk'_flip]
    exact ⟨rfl, hk, le_rfl⟩
  have hget : (last H.ctxs).get s = (H s).length := by rw [hlast, get_mk'_self]
  obtain ⟨v, hv, -, hsome, -⟩ := g'.layout.vertice hmem
  have hedge := g'.sound.edge _ s hmem hstep
  refine ⟨hedge.ok, hedge.kind r (by rw [hget]; simp), v, A'.ix ((last H.ctxs).step s), hv, ?_⟩
  rw [hsome s hstep, hget, History.oid_push_length]

theorem Grid.addLast (hop : OpOk E r.op) (hctx : r.ctx = (H s.flip).length)
    (hcontent : ∀ v, v.content = A.content (last H.ctxs) → content v = .ok S)
    (hlen : S.length = ℓ) (hS : Shows E S (r.op.act (denote (A.content (last H.ctxs))))) :
    ∃ V' A', addLast V s r.op r.oid content = .ok V' ∧ Grid E ℓ V' (H.push s r) A' ∧
      A.Extends (Mem H.ctxs) A' ∧ A'.content (last (H.push s r).ctxs) = S := by
  have hd := g.mem_last
  rw [last_eq H s, ← hctx] at hd hS hcontent
  obtain ⟨v, hv, hvc, -, -⟩ := g.layout.vertice hd
  obtain ⟨hlayout, hsound⟩ := g.add (i := V.length) hop hd hlen hS
  have hfresh := fresh_mk' H s r.ctx
  have hmem : ∀ c, Mem (H.push s r).ctxs c ↔ Mem H.ctxs c ∨ c = mk' s ((H s).length + 1) r.ctx := by
    intro c
    rw [g.mem_push_iff hd]
    refine or_congr_right ⟨fun ⟨h1, h2, h3⟩ => ?_, ?_⟩
    · exact ext_get s (by rw [h1, get_mk'_self]) (by rw [get_mk'_flip]; omega)
    rintro rfl
    rw [get_mk'_self, get_mk'_flip]
    omega
  refine ⟨_, _, ?_, ⟨g.stair_push hd, hlayout.congr hmem, hsound.congr hmem⟩, hfresh.extends, ?_⟩
  · rw [UfsRedis.addLast, g.layout.locateLast g.stair, last_eq H s, ← hctx]
    simp [hv, hcontent v hvc]
  rw [last_eq (H.push s r) s, History.push_self, History.push_flip, List.length_append,
    List.length_singleton, ← hctx, Cells.content_insert_self]

end UfsRedis

import UfsRedis.Types.SkiplistRep

/-!
# The operations of skiplists

* `Rep z ns`: the nodes of `z` are `ns`. Levels, spans, backward pointers, tail, length and the number
  of levels are those of the list;
* `zslInsert_ok`, `zslDeleteNode_ok`, `deleteRange_ok`: the operations keep it.
-/

namespace UfsRedis.Skiplist

open List Lib Option

/-- The nodes of `z` are `ns`. -/
structure Rep {S E : Type} (z : Zskiplist S E) (ns : List (Cell S E)) : Prop where
  stored : Stored z ns
  levels : Levels z z.level ns
  header : z.header.length = maxLevel
  above : ∀ i, z.level ≤ i → i < maxLevel → ∃ s, lev z .header i = some ⟨none, s⟩
  tail : z.tail = (place ns).addr
  length : z.length = ns.length
  heights : ∀ c ∈ ns, 1 ≤ c.height ∧ c.height ≤ z.level
  level : 1 ≤ z.level ∧ z.level ≤ maxLevel
  top : z.level = 1 ∨ ∃ c ∈ ns, c.height = z.level

variable {S E : Type} {z : Zskiplist S E} {ns A B : List (Cell S E)} {x : Cell S E}
  {u : List (At × Nat)}

section

variable {a N r k : Nat} {pre : List (Cell S E)}

theorem place_ne_of_fresh (h : ∀ c ∈ pre, c.addr ≠ a) : place pre ≠ .node a := by
  rcases eq_nil_or_concat' pre with rfl | ⟨pre, c, rfl⟩
  · simp
  rw [place_concat]
  exact fun e => h c (by simp) (At.node.inj e)

theorem usub_counts (h₀ : Counts N r₀ (k + d)) (h : Counts N r k) : usub r₀ r = d % uintSize := by
  simp only [Counts, usub, uintSize] at *
  omega

theorem usub_mod_add (k d : Nat) : usub ((k + d) % uintSize) (k % uintSize) = d % uintSize := by
  simp only [usub, uintSize]
  omega

theorem place_append_concat {D c} :
    place (pre ++ (D ++ [c])) = .node c.addr := by rw [← append_assoc, place_concat]

/-- Nodes `X` between `A` and `B` are replaced by `Y`. Of the old places only the last ones of `A` on
each level are written, which is where `W` holds. -/
theorem Levels.replace {z z'} {L : Nat} {X Y} (W : At → Nat → Prop)
    (hl : Levels z L (A ++ (X ++ B))) (hnd : ((A ++ (X ++ B)).map Cell.addr).Nodup)
    (hW : ∀ q j, W q j → ∃ P M, q = place P ∧ A = P ++ M ∧ Low j M)
    (hothers : ∀ pre post j, A ++ (X ++ B) = pre ++ post → ¬ W (place pre) j →
      lev z' (place pre) j = lev z (place pre) j)
    (hlast : ∀ P M j, A = P ++ M → Low j M → j < hgt L P →
      lev z' (place P) j = some ⟨fwd j (Y ++ B), (M.length + dist j (Y ++ B)) % uintSize⟩)
    (hnew : ∀ Y₁ y Y₂ j, Y = Y₁ ++ y :: Y₂ → j < y.height →
      lev z' (.node y.addr) j = some ⟨fwd j (Y₂ ++ B), dist j (Y₂ ++ B) % uintSize⟩) :
    Levels z' L (A ++ (Y ++ B)) := by
  have hA : ∀ j, j < hgt L A → lev z' (place A) j = some ⟨fwd j (Y ++ B), dist j (Y ++ B) % uintSize⟩ :=
    fun j hj => by simpa using hlast A [] j (by simp) Low.nil hj
  -- a place that is not the last one of `A` is as before
  have hkept : ∀ pre post j, A ++ (X ++ B) = pre ++ post → (∀ M, A = pre ++ M → ¬ Low j M) →
      lev z' (place pre) j = lev z (place pre) j := by
    refine fun pre post j hns hlow => hothers pre post j hns fun hw => ?_
    obtain ⟨P, M, hp, hP, hM⟩ := hW _ _ hw
    have hpre : pre = P := place_inj hnd hns (by rw [hP, append_assoc]) hp
    exact hlow M (hpre ▸ hP) hM
  intro pre post hns j hj
  rcases append_eq_append_iff.mp hns with ⟨D, rfl, hD⟩ | ⟨D, rfl, rfl⟩
  · rcases append_eq_append_iff.mp hD with ⟨F, rfl, rfl⟩ | ⟨F, rfl, rfl⟩
    · rcases eq_nil_or_concat' F with rfl | ⟨F, c, rfl⟩
      · rcases eq_nil_or_concat' Y with rfl | ⟨Y, y, rfl⟩
        · simpa using hA j (by simpa using hj)
        rw [append_nil, ← append_assoc, hgt_concat] at hj
        rw [append_nil, place_append_concat]
        exact hnew Y y [] j rfl hj
      -- a node of `B`
      rw [← append_assoc, ← append_assoc, hgt_concat] at hj
      have hns' : A ++ (X ++ (F ++ [c] ++ post)) = A ++ (X ++ (F ++ [c])) ++ post := by simp
      rw [← append_assoc Y, place_append_concat,
        ← @place_append_concat _ _ A (X ++ F) c, append_assoc, hkept _ post j hns' fun M hM => ?_]
      · exact hl _ _ hns' j (by rwa [← append_assoc, ← append_assoc, hgt_concat])
      have := congrArg length hM
      simp at this
    rcases eq_nil_or_concat' D with rfl | ⟨D, y, rfl⟩
    · simpa using hA j (by simpa using hj)
    rw [← append_assoc, hgt_concat] at hj
    rw [place_append_concat]
    exact hnew D y F j (by simp) hj
  by_cases hlow : Low j D
  · rw [fwd_append_low hlow, dist_append_low hlow]
    exact hlast pre D j rfl hlow hj
  obtain ⟨hf, hd⟩ := append_not_low hlow (Y ++ B) (X ++ B)
  rw [hf, hd, hkept pre (D ++ (X ++ B)) j (append_assoc ..) fun M hM => ?_]
  · exact hl pre (D ++ (X ++ B)) (append_assoc ..) j hj
  · rwa [← append_cancel_left hM]

theorem levels_insert (hl : Levels z L (A ++ B)) (hnd : ((A ++ B).map Cell.addr).Nodup)
    (hfresh : ∀ c ∈ A ++ B, c.addr ≠ x.addr) (hx : x.height ≤ L) (hlen : u.length = L)
    (hfound : Found L N A u) (hrank : Counts N rank0 A.length) (hh : ∀ c ∈ A ++ B, c.height ≤ L)
    (hothers : ∀ q j, q ≠ .node x.addr → (∀ r, u[j]? ≠ some (q, r)) → lev z' q j = lev z q j)
    (hvals : ∀ j p r l, u[j]? = some (p, r) → lev z p j = some l →
      (j < x.height → lev z' p j = some ⟨some x.addr, (usub rank0 r + 1) % uintSize⟩ ∧
        lev z' (.node x.addr) j = some ⟨l.forward, usub l.span (usub rank0 r)⟩) ∧
      (x.height ≤ j → lev z' p j = some ⟨l.forward, (l.span + 1) % uintSize⟩)) :
    Levels z' L (A ++ x :: B) := by
  -- the place that was written on level `j`
  have hwritten : ∀ j, j < L → ∃ P M r, u[j]? = some (place P, r) ∧ A = P ++ M ∧ Low j M ∧
      j < hgt L P ∧ usub rank0 r = M.length % uintSize ∧
      lev z (place P) j = some ⟨fwd j B, (M.length + dist j B) % uintSize⟩ := by
    intro j hj
    obtain ⟨⟨p, r⟩, hp⟩ : ∃ e, u[j]? = some e := ⟨_, getElem?_eq_getElem (by rw [hlen]; exact hj)⟩
    obtain ⟨P, M, rfl, hA, hlow, hP, hr⟩ := (hfound j p r hp).exists_place
    rw [hA, length_append] at hrank
    refine ⟨P, M, r, hp, hA, hlow, hP, usub_counts hrank hr, ?_⟩
    rw [hl P (M ++ B) (by rw [hA, append_assoc]) j hP, fwd_append_low hlow, dist_append_low hlow]
  refine @Levels.replace _ _ A B z z' L [] [x] (fun q j => ∃ r, u[j]? = some (q, r)) hl hnd ?_ ?_ ?_ ?_
  · rintro q j ⟨r, hr⟩
    obtain ⟨P, M, hp, hA, hlow, -, -⟩ := (hfound j q r hr).exists_place
    exact ⟨P, M, hp, hA, hlow⟩
  · intro pre post j hns hw
    exact hothers _ j (place_ne_of_fresh fun c hc => hfresh c (by rw [nil_append] at hns; simp [hns, hc]))
      fun r hr => hw ⟨r, hr⟩
  · intro P M j hA hlow hP
    obtain ⟨P', M', r, hu, hA', hlow', hP', hsub, hlev⟩ :=
      hwritten j (lt_of_lt_hgt hP fun c hc => hh c (by simp [hA, hc]))
    obtain rfl : P' = P := last_unique (hA'.symm.trans hA) hlow' hlow hP' hP
    obtain rfl : M' = M := append_cancel_left (hA'.symm.trans hA)
    obtain ⟨h1, h2⟩ := hvals j _ r _ hu hlev
    rw [singleton_append]
    by_cases hjx : j < x.height
    · rw [(h1 hjx).1, fwd_cons_of_lt hjx, dist_cons_of_lt hjx, hsub, Nat.mod_add_mod]
    rw [h2 (Nat.le_of_not_lt hjx), fwd_cons_of_le hjx, dist_cons_of_le hjx, Nat.mod_add_mod,
      add_assoc]
  intro Y1 y Y2 j hY hj
  obtain ⟨rfl, rfl, rfl⟩ : Y1 = [] ∧ y = x ∧ Y2 = [] := by
    cases Y1 with
    | nil => simpa [eq_comm] using hY
    | cons d Y1 => simp at hY
  obtain ⟨P, M, r, hu, -, -, -, hsub, hlev⟩ := hwritten j (by omega)
  rw [((hvals j _ r _ hu hlev).1 hj).2, hsub, usub_mod_add]
  rfl

theorem raiseLevel_ok (h : Rep z ns) (hk : k ≤ maxLevel) :
    Levels (raiseLevel z k) (max z.level k) ns ∧ (raiseLevel z k).nodes = z.nodes ∧
      (raiseLevel z k).level = max z.level k ∧ (raiseLevel z k).tail = z.tail ∧
      (raiseLevel z k).length = z.length ∧ (raiseLevel z k).header.length = maxLevel ∧
      ∀ i, max z.level k ≤ i → i < maxLevel →
        ∃ s, lev (raiseLevel z k) .header i = some ⟨none, s⟩ := by
  rw [raiseLevel]
  split
  · next hlt =>
    have hmax : max z.level k = k := max_eq_right (le_of_lt hlt)
    rw [hmax]
    have hhead : ∀ i, lev { z with
        header := z.header.mapIdx fun i l =>
          if z.level ≤ i ∧ i < k then { l with span := z.length % uintSize } else l
        level := k } .header i = (lev z .header i).map fun l =>
          if z.level ≤ i ∧ i < k then { l with span := z.length % uintSize } else l := fun i => by
      simp [lev]
    refine ⟨fun pre post hns i hi => ?_, rfl, rfl, rfl, rfl, by simpa using h.header,
      fun i hi hi' => ?_⟩
    · rcases eq_nil_or_concat' pre with rfl | ⟨pre, c, rfl⟩
      · rw [place_nil, hhead]
        obtain rfl : ns = post := hns
        by_cases hiz : i < z.level
        · have := h.levels [] ns rfl i hiz
          rw [place_nil] at this
          rw [this, map_some, if_neg (by omega)]
        obtain ⟨s, hs⟩ := h.above i (by omega) (lt_of_lt_of_le hi hk)
        have hlow : Low i ns := fun c hc => by
          have := (h.heights c hc).2
          omega
        have hdist := dist_append_low (B := []) hlow
        rw [append_nil] at hdist
        rw [hs, map_some, if_pos ⟨Nat.le_of_not_lt hiz, hi⟩, fwd_eq_none_iff.mpr hlow, hdist,
          h.length]
        rfl
      rw [hgt_concat] at hi
      have := h.levels (pre ++ [c]) post hns i (by rwa [hgt_concat])
      rw [place_concat] at this ⊢
      exact this
    obtain ⟨s, hs⟩ := h.above i (by omega) hi'
    refine ⟨s, ?_⟩
    rw [hhead, hs, map_some, if_neg (by omega)]
  next hle =>
  have hmax : max z.level k = z.level := max_eq_left (Nat.le_of_not_lt hle)
  rw [hmax]
  exact ⟨h.levels, rfl, rfl, rfl, rfl, h.header, h.above⟩

theorem lev_eq_of_get (hheader : z'.header = z.header)
    (hget : ∀ b, b ≠ a → z'.nodes.get b = z.nodes.get b) (hq : q ≠ .node a) (j : Nat) :
    lev z' q j = lev z q j := by
  cases q with
  | header => simp only [lev, hheader]
  | node b =>
    have hb : b ≠ a := fun e => hq (by rw [e])
    simp only [lev, hget b hb]

theorem nodup_middle : ((A ++ x :: B).map Cell.addr).Nodup ↔
    (∀ c ∈ A ++ B, c.addr ≠ x.addr) ∧ ((A ++ B).map Cell.addr).Nodup := by
  have hperm : ((A ++ x :: B).map Cell.addr).Perm (x.addr :: (A ++ B).map Cell.addr) :=
    perm_middle.map _
  rw [hperm.nodup_iff, nodup_cons, List.mem_map]
  simp

theorem Levels.congr (h : Levels z L ns)
    (hlev : ∀ q j, lev z' q j = lev z q j) : Levels z' L ns := fun pre post hns i hi =>
  (hlev _ _).trans (h pre post hns i hi)

/-- The nodes `post` after `pre`, with their backward pointers. -/
def Nodes (z : Zskiplist S E) (pre post : List (Cell S E)) : Prop :=
  ∀ P c Q, post = P ++ c :: Q →
    (z.nodes.get c.addr).map info = some (c.ele, c.score, (place (pre ++ P)).addr, c.height)

theorem nodes_append : Nodes z pre (A ++ B) ↔ Nodes z pre A ∧ Nodes z (pre ++ A) B := by
  constructor
  · intro h
    refine ⟨fun P c Q hA => h P c (Q ++ B) (by rw [hA]; simp), fun P c Q hB => ?_⟩
    rw [append_assoc]
    exact h (A ++ P) c Q (by rw [hB, append_assoc])
  rintro ⟨hA, hB⟩ P c Q hns
  rcases append_eq_append_iff.mp hns with ⟨D, rfl, hD⟩ | ⟨D, hD, hQ⟩
  · rw [← append_assoc]
    exact hB D c Q hD
  obtain _ | ⟨d, D⟩ := D
  · have := hB [] c Q (by simpa using hQ.symm)
    rw [append_nil] at this hD
    rwa [← hD]
  obtain ⟨rfl, -⟩ := List.cons.inj hQ
  exact hA P c D hD

theorem nodes_cons : Nodes z pre (c :: B) ↔
    (z.nodes.get c.addr).map info = some (c.ele, c.score, (place pre).addr, c.height) ∧
      Nodes z (pre ++ [c]) B := by
  rw [← singleton_append, nodes_append]
  refine and_congr_left fun _ => ⟨fun h => ?_, fun h P d Q hP => ?_⟩
  · simpa using h [] c [] rfl
  obtain ⟨rfl, rfl, rfl⟩ : P = [] ∧ d = c ∧ Q = [] := by
    cases P with
    | nil => simpa [eq_comm] using hP
    | cons e P => simp at hP
  rwa [append_nil]

theorem Nodes.congr (h : Nodes z pre A)
    (hget : ∀ c ∈ A, (z'.nodes.get c.addr).map info = (z.nodes.get c.addr).map info) :
    Nodes z' pre A := fun P c Q hA => (hget c (by rw [hA]; simp)).trans (h P c Q hA)

theorem Nodes.after (h : Nodes z (pre ++ [c]) B)
    (pre' : List (Cell S E)) : Nodes z (pre' ++ [c]) B := by
  intro P d Q hB
  rw [h P d Q hB]
  rcases eq_nil_or_concat' P with rfl | ⟨P, e, rfl⟩
  · rw [append_nil, append_nil, place_concat, place_concat]
  · rw [place_append_concat, place_append_concat]

/-- `z'` is `z` with `b` as the backward pointer of the first node of `B`, or as the tail. -/
structure Relinked (z : Zskiplist S E) (B : List (Cell S E)) (b : Option Nat)
    (z' : Zskiplist S E) : Prop where
  lev : ∀ q j, lev z' q j = lev z q j
  header : z'.header = z.header
  level : z'.level = z.level
  length : z'.length = z.length
  next : z'.nodes.next = z.nodes.next
  tail_nil : B = [] → z'.tail = b
  tail_ne : B ≠ [] → z'.tail = z.tail
  first : ∀ c B', B = c :: B' →
    (z'.nodes.get c.addr).map info = some (c.ele, c.score, b, c.height)
  others : ∀ a, (∀ c B', B = c :: B' → a ≠ c.addr) →
    (z'.nodes.get a).map info = (z.nodes.get a).map info

theorem writeBack_ok (hB : ∀ c ∈ B, 1 ≤ c.height) (h : Nodes z pre B)
    (b : Option Nat) : ∃ z', writeBack z (fwd 0 B) b = .ok z' ∧ Relinked z B b z' := by
  obtain _ | ⟨c, B⟩ := B
  · exact ⟨{ z with tail := b }, rfl, fun q j => by cases q <;> rfl, rfl, rfl, rfl, rfl,
      fun _ => rfl, fun hne => absurd rfl hne, by simp, fun _ _ => rfl⟩
  obtain ⟨n, hn, hinfo⟩ := Option.map_eq_some_iff.mp (nodes_cons.mp h).1
  simp only [info, Prod.mk.injEq] at hinfo
  have hself : ∀ n', (z.nodes.set c.addr n').get c.addr = some n' := fun n' => Heap.get_set_self hn
  have hne : ∀ n' a, a ≠ c.addr → (z.nodes.set c.addr n').get a = z.nodes.get a := fun n' a ha =>
    Heap.get_set_of_ne ha
  refine ⟨{ z with nodes := z.nodes.set c.addr { n with backward := b } }, ?_, fun q j => ?_, rfl, rfl,
    rfl, rfl, by simp, fun _ => rfl, fun d B' hd => ?_, fun a ha => ?_⟩
  · rw [fwd_cons_of_lt (hB c (by simp)), writeBack, writeBackward, node, hn, deref_some, ok_bind]
  · cases q with
    | header => rfl
    | node a =>
      by_cases ha : a = c.addr
      · subst ha
        simp [Skiplist.lev, hself, hn]
      · simp [Skiplist.lev, hne _ a ha]
  · rw [← (List.cons.inj hd).1, hself]
    simp [info, hinfo]
  · rw [hne _ a (ha c B rfl)]

theorem Relinked.nodes
    (hr : Relinked z B (place pre').addr z') (h : Nodes z pre B) (hnd : (B.map Cell.addr).Nodup) :
    Nodes z' pre' B := by
  obtain _ | ⟨c, B⟩ := B
  · exact fun P c Q hP => by simp at hP
  have htail := (nodes_cons.mp h).2.after pre'
  refine nodes_cons.mpr ⟨hr.first c B rfl, htail.congr fun d hd => hr.others _ fun e B' he => ?_⟩
  rw [← (List.cons.inj he).1]
  rw [map_cons, nodup_cons] at hnd
  exact fun hdc => hnd.1 (hdc ▸ mem_map_of_mem hd)

theorem Stored.nodes (h : Stored z ns) : Nodes z [] ns := h.node

theorem Last.eq_end (h : Last L N A 0 p r)
    (hh : ∀ c ∈ A, 1 ≤ c.height) : p = place A ∧ Counts N r A.length := by
  obtain ⟨P, M, rfl, rfl, hlow, -, hr⟩ := h.exists_place
  obtain rfl : M = [] := hlow.eq_nil fun c hc => hh c (by simp [hc])
  rw [append_nil]
  exact ⟨rfl, hr⟩

theorem Found.extend (h : Found L N A u) (hlen : u.length = L)
    (hA : ∀ c ∈ A, c.height ≤ L) : Found (max L k) N A (u ++ replicate (k - L) (At.header, 0)) := by
  intro i p r hi
  rcases lt_or_ge i u.length with hlt | hge
  · rw [getElem?_append_left hlt] at hi
    obtain ⟨P, M, rfl, hA, hlow, hP, hr⟩ := (h i p r hi).exists_place
    exact ⟨P, M, rfl, hA, hlow, lt_hgt_of_le hP fun h => lt_of_lt_of_le h (le_max_left _ _), hr⟩
  have hiL : i < max L k := by
    have := (List.getElem?_eq_some_iff.mp hi).1
    rw [length_append, length_replicate] at this
    omega
  rw [getElem?_append_right hge] at hi
  have := eq_of_mem_replicate (mem_of_getElem? hi)
  rw [Prod.mk.injEq] at this
  obtain ⟨rfl, rfl⟩ := this
  refine ⟨[], A, rfl, rfl, fun c hc => ?_, hiL, Counts.zero N⟩
  have := hA c hc
  omega

/-- **`zslInsert` puts a node between those it passes and the others.** -/
theorem zslInsert_ok [LinearOrder S] [LinearOrder E]
    (h : Rep z (A ++ B)) (hk : 1 ≤ k ∧ k ≤ maxLevel)
    (hpass : Passes (fun _ s e => decide (s < score) || (decide (s = score) && decide (e < ele)))
      A B) :
    ∃ z', zslInsert z score ele k = .ok z' ∧ Rep z' (A ++ ⟨z.nodes.next, score, ele, k⟩ :: B) := by
  obtain ⟨u, hu, hulen, hfound⟩ := search_ok h.levels h.stored hpass
  obtain ⟨hlev1, hnodes1, hlevel1, htail1, hlength1, hheader1, habove1⟩ := raiseLevel_ok h hk.2
  set x : Cell S E := ⟨z.nodes.next, score, ele, k⟩ with hxdef
  set L := max z.level k with hL
  set N := (A ++ B).length with hN
  set u' := u ++ replicate (k - z.level) (At.header, 0) with hu'
  have hfresh : ∀ c ∈ A ++ B, c.addr ≠ x.addr := fun c hc => ne_of_lt (h.stored.lt_next hc)
  have hulen' : u'.length = L := by
    rw [hu', length_append, length_replicate, hulen, hL]
    omega
  have hfound' : Found L N A u' := hfound.extend hulen fun c hc => (h.heights c (by simp [hc])).2
  -- the first place
  obtain ⟨⟨first, rank0⟩, rest, hcons⟩ : ∃ e rest, u' = e :: rest := by
    rcases hc : u' with _ | ⟨e, rest⟩
    · rw [hc] at hulen'
      have := h.level.1
      simp at hulen'
      omega
    exact ⟨e, rest, rfl⟩
  obtain ⟨hfirst, hrank⟩ := (hfound' 0 first rank0 (by rw [hcons]; rfl)).eq_end
    fun c hc => (h.heights c (by simp [hc])).1
  -- the new node
  set z2 : Zskiplist S E := { raiseLevel z k with
    nodes := (raiseLevel z k).nodes.alloc ⟨ele, score, first.addr, replicate k ⟨none, 0⟩⟩ } with hz2
  have hget2 : ∀ a, a ≠ x.addr → z2.nodes.get a = z.nodes.get a := by
    intro a ha
    change (if a = (raiseLevel z k).nodes.next then _ else (raiseLevel z k).nodes.get a) = _
    rw [hnodes1, if_neg ha]
  have hgetx : z2.nodes.get x.addr = some ⟨ele, score, first.addr, replicate k ⟨none, 0⟩⟩ := by
    change (if x.addr = (raiseLevel z k).nodes.next then _ else _) = _
    rw [hnodes1, if_pos rfl]
  have hlev2 : ∀ q j, q ≠ .node x.addr → lev z2 q j = lev (raiseLevel z k) q j := fun q j hq =>
    lev_eq_of_get (by rfl) (fun a ha => by rw [hnodes1]; exact hget2 a ha) hq j
  have hlevels2 : Levels z2 L (A ++ B) := by
    intro pre post hns i hi
    rw [hlev2 _ _ (place_ne_of_fresh fun c hc => hfresh c (by rw [hns]; simp [hc]))]
    exact hlev1 pre post hns i hi
  have hx2 : ∀ j, j < k → ∃ l, lev z2 (.node x.addr) j = some l := by
    intro j hj
    refine ⟨⟨none, 0⟩, ?_⟩
    simp [lev, hgetx, hj]
  have hplace : ∀ j p r, u'[j]? = some (p, r) → p ≠ .node x.addr ∧ ∃ l, lev z2 p j = some l := by
    intro j p r hj
    obtain ⟨P, M, rfl, hA, -, hP, -⟩ := (hfound' j p r hj).exists_place
    refine ⟨place_ne_of_fresh fun c hc => hfresh c (by rw [hA]; simp [hc]), _,
      hlevels2 P (M ++ B) (by rw [hA, append_assoc]) j hP⟩
  obtain ⟨z3, hz3, ht3, hothers, hvals⟩ := @insertLevels_ok _ _ z2 x.addr k rank0 u' hplace hx2
  have hheights : ∀ c ∈ A ++ B, c.height ≤ L := fun c hc =>
    le_trans (h.heights c hc).2 (le_max_left _ _)
  have hlevels3 : Levels z3 L (A ++ x :: B) :=
    levels_insert hlevels2 h.stored.nodup hfresh (le_max_right _ _) hulen' hfound' hrank hheights
      hothers hvals
  have hread := readLevel_eq (hlevels3.at_node hk.1)
  have hB : ∀ c ∈ B, 1 ≤ c.height := fun c hc => (h.heights c (by simp [hc])).1
  -- the nodes before the backward pointer is written
  have hinfo3 : ∀ a, a ≠ x.addr → (z3.nodes.get a).map info = (z.nodes.get a).map info := fun a ha => by
    rw [ht3.info, hget2 a ha]
  have hinfox : (z3.nodes.get x.addr).map info = some (ele, score, (place A).addr, k) := by
    rw [ht3.info, hgetx, hfirst]
    simp [info]
  have hnd' : ((A ++ x :: B).map Cell.addr).Nodup := nodup_middle.mpr ⟨hfresh, h.stored.nodup⟩
  -- the backward pointer of the next node, or the tail
  obtain ⟨hnodesA, hnodesB⟩ := nodes_append.mp h.stored.nodes
  have hndAB := nodup_append.mp (map_append ▸ h.stored.nodup)
  have hnodesB3 : Nodes z3 A B := hnodesB.congr fun c hc => hinfo3 _ (hfresh c (by simp [hc]))
  obtain ⟨z4, hz4, hback⟩ := writeBack_ok hB hnodesB3 (place (A ++ [x])).addr
  have hnotfirst : ∀ a, (∀ c ∈ B, a ≠ c.addr) →
      (z4.nodes.get a).map info = (z3.nodes.get a).map info := fun a ha =>
    hback.others a fun c B' hc => ha c (by rw [hc]; simp)
  have hnodes4 : Nodes z4 [] (A ++ x :: B) := by
    refine nodes_append.mpr ⟨hnodesA.congr fun c hc => ?_, nodes_cons.mpr ⟨?_, ?_⟩⟩
    · rw [hnotfirst _ fun d hd => ?_, hinfo3 _ (hfresh c (by simp [hc]))]
      exact hndAB.2.2 _ (mem_map_of_mem hc) _ (mem_map_of_mem hd)
    · rw [hnotfirst _ fun c hc => (hfresh c (by simp [hc])).symm]
      exact hinfox
    · exact hback.nodes hnodesB3 hndAB.2.1
  have hlevel : z4.level = L := by
    rw [hback.level, ht3.level]
    exact hlevel1
  refine ⟨{ z4 with length := z4.length + 1 }, ?_, ⟨⟨hnd', hnodes4⟩, ?_, ?_, fun i hi hi' => ?_, ?_, ?_,
    fun c hc => ?_, ?_, ?_⟩⟩
  · have hnext : (raiseLevel z k).nodes.next = x.addr := by rw [hnodes1]
    rw [place_concat] at hz4
    rw [zslInsert, hu, ok_bind]
    rw [← hu', hcons]
    dsimp only
    rw [← hcons, hnext, ← hz2, hz3, ok_bind, hread, ok_bind]
    exact bind_eq_ok.mpr ⟨z4, hz4, rfl⟩
  · change Levels z4 z4.level _
    rw [hlevel]
    exact hlevels3.congr hback.lev
  · change z4.header.length = _
    rw [hback.header, ht3.header]
    exact hheader1
  · have hi : L ≤ i := by
      have : z4.level ≤ i := hi
      rwa [hlevel] at this
    obtain ⟨s, hs⟩ := habove1 i hi hi'
    refine ⟨s, ?_⟩
    change lev z4 .header i = _
    rw [hback.lev, hothers .header i (by simp) fun r hr => ?_, hlev2 _ _ (by simp), hs]
    have := (List.getElem?_eq_some_iff.mp hr).1
    omega
  · change z4.tail = _
    rcases eq_nil_or_concat' B with hnil | ⟨D, d, hD⟩
    · rw [hback.tail_nil hnil, hnil]
    rw [hback.tail_ne (by simp [hD]), ht3.tail]
    rw [htail1, h.tail, hD, ← cons_append, place_append_concat, place_append_concat]
  · change z4.length + 1 = _
    rw [hback.length, ht3.length]
    change (raiseLevel z k).length + 1 = _
    rw [hlength1, h.length]
    simp
    omega
  · change 1 ≤ c.height ∧ c.height ≤ z4.level
    rw [hlevel]
    rcases mem_append.mp hc with hc | hc
    · exact ⟨(h.heights c (by simp [hc])).1, hheights c (by simp [hc])⟩
    rcases mem_cons.mp hc with rfl | hc
    · exact ⟨hk.1, le_max_right _ _⟩
    · exact ⟨(h.heights c (by simp [hc])).1, hheights c (by simp [hc])⟩
  · change 1 ≤ z4.level ∧ z4.level ≤ maxLevel
    rw [hlevel]
    exact ⟨le_trans h.level.1 (le_max_left _ _), Nat.max_le.mpr ⟨h.level.2, hk.2⟩⟩
  change z4.level = 1 ∨ ∃ c ∈ A ++ x :: B, c.height = z4.level
  rw [hlevel]
  rcases le_total z.level k with hle | hle
  · exact .inr ⟨x, by simp, (max_eq_right hle).symm⟩
  have hLz : L = z.level := max_eq_left hle
  rw [hLz]
  rcases h.top with h1 | ⟨c, hc, hce⟩
  · exact .inl h1
  refine .inr ⟨c, ?_, hce⟩
  simp only [mem_append, mem_cons] at hc ⊢
  exact hc.imp_right .inr

end

/-! ## Deletion -/

/-- On the levels below `L`, `update` has the last places of `A`. -/
def Updates (L : Nat) (A : List (Cell S E)) (update : List (At × Nat)) : Prop :=
  ∀ i, i < L → ∃ P M r, update[i]? = some (place P, r) ∧ A = P ++ M ∧ Low i M ∧ i < hgt L P

variable {L : Nat} {pass : Nat → S → E → Bool}

theorem Found.updates (h : Found L N A u) (hlen : u.length = L) : Updates L A u := by
  intro i hi
  obtain ⟨⟨p, r⟩, hp⟩ : ∃ e, u[i]? = some e := ⟨_, getElem?_eq_getElem (by rw [hlen]; exact hi)⟩
  obtain ⟨P, M, rfl, hA, hlow, hP, -⟩ := (h i p r hp).exists_place
  exact ⟨P, M, r, hp, hA, hlow, hP⟩

theorem Updates.lower (h : Updates L A u) (hL : L' ≤ L) : Updates L' A u := by
  intro i hi
  obtain ⟨P, M, r, hp, hA, hlow, hP⟩ := h i (by omega)
  exact ⟨P, M, r, hp, hA, hlow, lt_hgt_of_le hP fun _ => hi⟩

theorem usub_one (d : Nat) : usub ((d + 1) % uintSize) 1 = d % uintSize := by
  simp only [usub, uintSize]
  omega

theorem usub_add_one (a b : Nat) :
    usub ((a + 1) % uintSize + b % uintSize) 1 = (a + b) % uintSize := by
  simp only [usub, uintSize]
  omega

theorem levels_unlink (hl : Levels z L (A ++ x :: B)) (hnd : ((A ++ x :: B).map Cell.addr).Nodup)
    (hh : ∀ c ∈ A ++ x :: B, c.height ≤ L) (hu : Updates L A u)
    (hothers : ∀ q j, (∀ r, j < L → u[j]? ≠ some (q, r)) → lev z' q j = lev z q j)
    (hvals : ∀ j p r l, j < L → u[j]? = some (p, r) → lev z p j = some l →
      (l.forward = some x.addr → ∀ lx, lev z (.node x.addr) j = some lx →
        lev z' p j = some ⟨lx.forward, usub (l.span + lx.span) 1⟩) ∧
      (l.forward ≠ some x.addr → lev z' p j = some ⟨l.forward, usub l.span 1⟩)) :
    Levels z' L (A ++ B) := by
  refine @Levels.replace _ _ A B z z' L [x] [] (fun q j => j < L ∧ ∃ r, u[j]? = some (q, r)) hl hnd
    ?_ ?_ ?_ (by simp)
  · rintro q j ⟨hj, r, hr⟩
    obtain ⟨P, M, r', hp, hA, hlow, -⟩ := hu j hj
    rw [hr, some.injEq, Prod.mk.injEq] at hp
    exact ⟨P, M, hp.1, hA, hlow⟩
  · exact fun pre post j _ hw => hothers _ j fun r hj hr => hw ⟨hj, r, hr⟩
  intro P M j hA hlow hP
  have hjL := lt_of_lt_hgt hP fun c hc => hh c (by simp [hA, hc])
  obtain ⟨P', M', r, hp, hA', hlow', hP'⟩ := hu j hjL
  obtain rfl : P' = P := last_unique (hA'.symm.trans hA) hlow' hlow hP' hP
  have hlev := hl P' (M ++ x :: B) (by rw [hA, append_assoc]) j hP
  rw [fwd_append_low hlow, dist_append_low hlow] at hlev
  obtain ⟨h1, h2⟩ := hvals j _ r _ hjL hp hlev
  rw [nil_append]
  by_cases hjx : j < x.height
  · rw [h1 (fwd_cons_of_lt hjx) _ (hl.at_node hjx), dist_cons_of_lt hjx, usub_add_one]
  have hne : fwd j B ≠ some x.addr := by
    intro hf
    obtain ⟨B1, c, B2, hB, -, -, hc⟩ := exists_of_fwd hf
    exact (nodup_middle.mp hnd).1 c (by rw [hB]; simp) hc
  rw [h2 (by rwa [fwd_cons_of_le hjx]), fwd_cons_of_le hjx, dist_cons_of_le hjx, ← add_assoc,
    usub_one]

theorem lev_level (z : Zskiplist S E) (m : Nat) (q : At) (j : Nat) :
    lev { z with level := m } q j = lev z q j := by cases q <;> rfl

theorem lowerLevel_ok (hn : z.level ≤ n) (hl : Levels z z.level ns)
    (hh : ∀ c ∈ ns, c.height ≤ z.level) (h1 : 1 ≤ z.level) :
    ∃ m, lowerLevel n z = .ok { z with level := m } ∧ 1 ≤ m ∧ m ≤ z.level ∧
      (∀ c ∈ ns, c.height ≤ m) ∧ (m = 1 ∨ ∃ c ∈ ns, c.height = m) ∧
      ∀ i, m ≤ i → i < z.level → ∃ s, lev z .header i = some ⟨none, s⟩ := by
  induction n generalizing z with
  | zero => omega
  | succ n ih =>
    rw [lowerLevel]
    by_cases hlt : 1 < z.level
    · have hlev := hl [] ns rfl (z.level - 1) (by rw [hgt_nil]; omega)
      rw [place_nil] at hlev
      rw [if_pos hlt, readLevel_eq hlev, ok_bind]
      rcases hf : fwd (z.level - 1) ns with _ | a
      · have hlow := fwd_eq_none_iff.mp hf
        rw [if_pos rfl]
        obtain ⟨m, hm, hm1, hmz, hmh, hmt, hma⟩ := ih (z := { z with level := z.level - 1 })
          (by change z.level - 1 ≤ n; omega)
          (fun pre post hns i hi => by
            rw [lev_level]
            refine hl pre post hns i (lt_hgt_of_le hi fun hlt => ?_)
            change i < z.level - 1 at hlt
            omega)
          (fun c hc => hlow c hc) (by change 1 ≤ z.level - 1; omega)
        have hmz : m ≤ z.level - 1 := hmz
        refine ⟨m, hm, hm1, by omega, hmh, hmt, fun i hi hiz => ?_⟩
        by_cases hie : i = z.level - 1
        · rw [hie, hlev, hf]
          exact ⟨_, rfl⟩
        obtain ⟨s, hs⟩ := hma i hi (by change i < z.level - 1; omega)
        rw [lev_level] at hs
        exact ⟨s, hs⟩
      obtain ⟨N1, c, N2, hns, -, hc, -⟩ := exists_of_fwd hf
      have hcm : c ∈ ns := by rw [hns]; simp
      have hcz := hh c hcm
      refine ⟨z.level, if_neg (by simp), h1, le_rfl, hh, .inr ⟨c, hcm, by omega⟩,
        fun i hi hiz => by omega⟩
    rw [if_neg hlt]
    exact ⟨z.level, rfl, h1, le_rfl, hh, .inl (by omega), fun i hi hiz => by omega⟩

/-- **`zslDeleteNode` and `zslFreeNode` take a node out.** -/
theorem zslDeleteNode_ok (h : Rep z (A ++ x :: B)) (hu : Updates z.level A u) :
    ∃ z', zslDeleteNode z x.addr u = .ok z' ∧ Rep (zslFreeNode z' x.addr) (A ++ B) ∧
      (zslFreeNode z' x.addr).level ≤ z.level ∧ (zslFreeNode z' x.addr).nodes.next = z.nodes.next ∧
      (z'.nodes.get x.addr).map info = (z.nodes.get x.addr).map info := by
  have hnd := h.stored.nodup
  obtain ⟨hfresh, hndAB'⟩ := nodup_middle.mp hnd
  have htake : ∀ j e, (u.take z.level)[j]? = some e ↔ j < z.level ∧ u[j]? = some e := by
    intro j e
    rw [getElem?_take]
    by_cases hj : j < z.level <;> simp [hj]
  -- the levels
  obtain ⟨z1, hz1, ht1, hself, hothers, hvals⟩ := @unlinkLevels_ok _ _ z x.addr (u.take z.level) (by
    intro j p r hj
    rw [htake] at hj
    obtain ⟨P, M, r', hp, hA, hlow, hP⟩ := hu j hj.1
    rw [hj.2, some.injEq, Prod.mk.injEq] at hp
    obtain ⟨rfl, rfl⟩ := hp
    refine ⟨place_ne_of_fresh fun c hc => hfresh c (by rw [hA]; simp [hc]), _,
      h.levels P (M ++ x :: B) (by rw [hA, append_assoc]) j hP, fun hf => ?_⟩
    have hf : fwd j (M ++ x :: B) = some x.addr := hf
    rw [fwd_append_low hlow] at hf
    by_cases hjx : j < x.height
    · exact ⟨_, h.levels.at_node hjx⟩
    rw [fwd_cons_of_le hjx] at hf
    obtain ⟨B1, c, B2, hB, -, -, hc⟩ := exists_of_fwd hf
    exact absurd hc (hfresh c (by rw [hB]; simp)))
  have hlevels1 : Levels z1 z.level (A ++ B) := by
    refine levels_unlink h.levels hnd (fun c hc => (h.heights c hc).2) hu (fun q j hq => ?_)
      fun j p r l hj hp hl => hvals j p r l ((htake j _).mpr ⟨hj, hp⟩) hl
    refine hothers q j fun r hr => ?_
    rw [htake] at hr
    exact hq r hr.1 hr.2
  have hread : readLevel z1 (.node x.addr) 0 = .ok ⟨fwd 0 B, dist 0 B % uintSize⟩ := by
    refine readLevel_eq ?_
    rw [hself]
    exact h.levels.at_node (h.heights x (by simp)).1
  have hxinfo := (ht1.info x.addr).trans (h.stored.node A x B rfl)
  obtain ⟨nx, hnx, hnxinfo⟩ := Option.map_eq_some_iff.mp hxinfo
  simp only [info, Prod.mk.injEq] at hnxinfo
  -- the backward pointer of the next node, or the tail
  obtain ⟨hnodesA, hnodesB⟩ := nodes_append.mp h.stored.nodes
  have hndAB := nodup_append.mp (map_append ▸ hnd)
  have hndB : (B.map Cell.addr).Nodup := (nodup_cons.mp hndAB.2.1).2
  have hnodesB1 : Nodes z1 (A ++ [x]) B := (nodes_cons.mp hnodesB).2.congr fun c _ => ht1.info _
  obtain ⟨z2, hz2, hback⟩ := writeBack_ok (fun c hc => (h.heights c (by simp [hc])).1) hnodesB1
    (place A).addr
  have hnodes2 : Nodes z2 [] (A ++ B) := by
    refine nodes_append.mpr ⟨hnodesA.congr fun c hc => ?_, hback.nodes hnodesB1 hndB⟩
    rw [hback.others _ fun d B' hd => ?_, ht1.info]
    exact hndAB.2.2 _ (mem_map_of_mem hc) _ (mem_map_of_mem (by rw [hd]; simp))
  have htail2 : z2.tail = (place (A ++ B)).addr := by
    rcases eq_nil_or_concat' B with hnil | ⟨D, d, hD⟩
    · rw [hback.tail_nil hnil, hnil, append_nil]
    rw [hback.tail_ne (by simp [hD]), ht1.tail, h.tail, hD, ← cons_append, place_append_concat,
      place_append_concat]
  have hlevel : z2.level = z.level := hback.level.trans ht1.level
  have hlevels2 : Levels z2 z2.level (A ++ B) := by
    rw [hlevel]
    exact hlevels1.congr hback.lev
  have hmem : ∀ c ∈ A ++ B, c ∈ A ++ x :: B := fun c hc => by
    simp only [mem_append, mem_cons] at hc ⊢
    exact hc.imp_right .inr
  obtain ⟨m, hm, hm1, hmz, hmh, hmt, hma⟩ := lowerLevel_ok (le_refl z2.level) hlevels2
    (fun c hc => by rw [hlevel]; exact (h.heights c (hmem c hc)).2) (by rw [hlevel]; exact h.level.1)
  refine ⟨{ z2 with level := m, length := z2.length - 1 }, ?_, ?_, by rw [← hlevel]; exact hmz, ?_, ?_⟩
  · rw [zslDeleteNode, hz1, ok_bind, hread, ok_bind, node, hnx, deref_some, ok_bind]
    refine bind_eq_ok.mpr ⟨z2, by rw [hnxinfo.2.2.1]; exact hz2, ?_⟩
    rw [hm, ok_bind]
  · -- the node is freed
    set z3 := zslFreeNode { z2 with level := m, length := z2.length - 1 } x.addr with hz3
    have hget : ∀ a, a ≠ x.addr → z3.nodes.get a = z2.nodes.get a := fun a ha => if_neg ha
    have hlev3 : ∀ q j, q ≠ .node x.addr → lev z3 q j = lev z2 q j := fun q j hq =>
      lev_eq_of_get (by rfl) hget hq j
    refine ⟨⟨hndAB', fun pre c post hns => ?_⟩, fun pre post hns i hi => ?_, ?_,
      fun i hi hi' => ?_, htail2, ?_, fun c hc => ⟨(h.heights c (hmem c hc)).1, hmh c hc⟩,
      ⟨hm1, ?_⟩, hmt⟩
    · rw [hget _ (hfresh c (by rw [hns]; simp))]
      exact hnodes2 pre c post hns
    · rw [hlev3 _ _ (place_ne_of_fresh fun c hc => hfresh c (by rw [hns]; simp [hc]))]
      exact hlevels2 pre post hns i (lt_hgt_of_le hi fun hlt => lt_of_lt_of_le hlt hmz)
    · change z2.header.length = _
      rw [hback.header, ht1.header, h.header]
    · have hi : m ≤ i := hi
      rw [hlev3 _ _ (by simp)]
      rcases lt_or_ge i z2.level with hlt | hge
      · exact hma i hi hlt
      rw [hlevel] at hge
      obtain ⟨s, hs⟩ := h.above i hge hi'
      refine ⟨s, ?_⟩
      rw [hback.lev, hothers _ i fun r hr => ?_, hs]
      rw [htake] at hr
      omega
    · change z2.length - 1 = _
      rw [hback.length, ht1.length, h.length]
      simp
    rw [hlevel] at hmz
    exact le_trans hmz h.level.2
  · change z2.nodes.next = _
    rw [hback.next, ht1.next]
  change (z2.nodes.get x.addr).map info = _
  rw [hback.others _ fun c B' hc => (hfresh c (by rw [hc]; simp)).symm, ht1.info]

theorem Rep.search (h : Rep z (A ++ B)) (hpass : Passes pass A B) :
    ∃ p r rest, search z pass = .ok ((p, r) :: rest) ∧ Updates z.level A ((p, r) :: rest) ∧
      Counts (A ++ B).length r A.length ∧ afterSearch z ((p, r) :: rest) = .ok (fwd 0 B) := by
  obtain ⟨u, hu, hulen, hfound⟩ := search_ok h.levels h.stored hpass
  have hheights : ∀ c ∈ A, 1 ≤ c.height := fun c hc => (h.heights c (by simp [hc])).1
  obtain _ | ⟨e, rest⟩ := u
  · exact absurd hulen.symm (ne_of_gt h.level.1)
  obtain ⟨hp, hr⟩ := (hfound 0 e.1 e.2 rfl).eq_end hheights
  have hpos : 0 < hgt z.level A := by
    rcases eq_nil_or_concat' A with rfl | ⟨A, c, rfl⟩
    · exact h.level.1
    rw [hgt_concat]
    exact hheights c (by simp)
  refine ⟨e.1, e.2, rest, hu, hfound.updates hulen, hr, ?_⟩
  rw [afterSearch, hp, readLevel_eq (h.levels A B rfl 0 hpos), ok_bind]

theorem deleteWhile_ok (inRange : Nat → S → E → Bool) {fuel t : Nat}
    (h : Rep z (A ++ B)) (hu : Updates z.level A u) (hf : B.length < fuel) :
    ∃ z' r B', deleteWhile inRange u fuel t (fwd 0 B) z = .ok (z', r) ∧ B' <:+ B ∧
      Rep z' (A ++ B') := by
  induction fuel generalizing z B t with
  | zero => omega
  | succ fuel ih =>
    obtain _ | ⟨c, B⟩ := B
    · exact ⟨z, 0, [], rfl, suffix_rfl, h⟩
    have hc1 := (h.heights c (by simp)).1
    obtain ⟨n, hn, -, -⟩ := h.stored.get (c := c) (by simp)
    rw [fwd_cons_of_lt hc1, deleteWhile, node, hn, deref_some, ok_bind]
    by_cases hr : inRange t n.score n.ele = true
    · obtain ⟨z1, hz1, hrep, hlevel, -⟩ := zslDeleteNode_ok h hu
      obtain ⟨z', r, B', hz', hsuf, hrep'⟩ := ih (t := t + 1) hrep (hu.lower hlevel)
        (by simp at hf; omega)
      refine ⟨z', r + 1, B', ?_, hsuf.trans (suffix_cons c B), hrep'⟩
      rw [if_pos hr, readLevel_eq (h.levels.at_node hc1), ok_bind, hz1, ok_bind, hz', ok_bind]
    · exact ⟨z, 0, c :: B, if_neg hr, suffix_rfl, h⟩

/-- **The deletions of ranges** take nodes out after those that the search passes. -/
theorem deleteRange_ok (inRange : Nat → S → E → Bool)
    (h : Rep z (A ++ B)) (hpass : Passes pass A B) :
    ∃ z' r B', deleteRange z pass inRange = .ok (z', r) ∧ B' <:+ B ∧ Rep z' (A ++ B') := by
  obtain ⟨p, r, rest, hu, hupd, -, hafter⟩ := h.search hpass
  have hfuel : B.length < z.nodes.next + 1 := by
    have := h.stored.length_le
    simp at this
    omega
  obtain ⟨z', k, B', hz', hsuf, hrep⟩ := @deleteWhile_ok _ _ _ _ _ _ inRange _ (r + 1) h hupd hfuel
  refine ⟨z', k, B', ?_, hsuf, hrep⟩
  rw [deleteRange, hu, ok_bind]
  dsimp only
  rw [hafter, ok_bind]
  exact hz'

/-- **`zslDelete`** takes out one node after those that the search passes, or none. -/
theorem zslDelete_ok [LinearOrder S] [LinearOrder E] (h : Rep z (A ++ B))
    (hpass : Passes (fun _ s e => decide (s < score) || (decide (s = score) && decide (e < ele)))
      A B) : ∃ z' r B', zslDelete z score ele = .ok (z', r) ∧ B' <:+ B ∧ Rep z' (A ++ B') := by
  obtain ⟨p, r, rest, hu, hupd, -, hafter⟩ := h.search hpass
  rw [zslDelete, hu, ok_bind, hafter, ok_bind]
  obtain _ | ⟨c, B⟩ := B
  · exact ⟨z, false, [], rfl, suffix_rfl, h⟩
  obtain ⟨n, hn, -, -⟩ := h.stored.get (c := c) (by simp)
  rw [fwd_cons_of_lt (h.heights c (by simp)).1]
  dsimp only
  rw [node, hn, deref_some, ok_bind]
  by_cases heq : score = n.score ∧ n.ele = ele
  · obtain ⟨z1, hz1, hrep, -⟩ := zslDeleteNode_ok h hupd
    refine ⟨_, true, B, ?_, suffix_cons c B, hrep⟩
    rw [if_pos heq, hz1, ok_bind]
  · exact ⟨z, false, c :: B, if_neg heq, suffix_rfl, h⟩

end UfsRedis.Skiplist

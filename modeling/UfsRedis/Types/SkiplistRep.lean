import UfsRedis.Types.Skiplist

/-!
# The levels of a skiplist

A skiplist represents a list of cells: at each level the pointer and the span of a node are those to
the next cell that has the level. `search_ok` finds the last cell before a place at each level, and
`insertLevels_ok` and `unlinkLevels_ok` write the levels of the list with a cell more or less.
-/

namespace UfsRedis.Skiplist

open List Lib Option

/-! ## Lists of nodes -/

/-- A node, with the number of its levels. -/
structure Cell (S E : Type) where
  addr : Nat
  score : S
  ele : E
  height : Nat

variable {S E : Type} {z : Zskiplist S E}

section

variable {i L : Nat} {A B P P' M M' : List (Cell S E)} {c : Cell S E}

/-- The first node of level `i`. -/
def fwd (i : Nat) : List (Cell S E) → Option Nat
  | [] => none
  | c :: l => if i < c.height then some c.addr else fwd i l

def dist (i : Nat) : List (Cell S E) → Nat
  | [] => 0
  | c :: l => if i < c.height then 1 else dist i l + 1

/-- No node has the level `i`. -/
def Low (i : Nat) (l : List (Cell S E)) : Prop := ∀ c ∈ l, c.height ≤ i

theorem Low.nil : Low i ([] : List (Cell S E)) := fun _ h => absurd h not_mem_nil

theorem fwd_append_low (h : Low i A) : fwd i (A ++ B) = fwd i B := by
  induction A with
  | nil => rfl
  | cons c A ih =>
    have hc : ¬ i < c.height := not_lt.mpr (h c (by simp))
    rw [cons_append, fwd, if_neg hc, ih fun c hc => h c (by simp [hc])]

theorem dist_append_low (h : Low i A) : dist i (A ++ B) = A.length + dist i B := by
  induction A with
  | nil => simp
  | cons c A ih =>
    have hc : ¬ i < c.height := not_lt.mpr (h c (by simp))
    rw [cons_append, dist, if_neg hc, ih fun c hc => h c (by simp [hc]), length_cons]
    omega

theorem fwd_cons_of_lt (h : i < c.height) : fwd i (c :: B) = some c.addr := if_pos h

theorem dist_cons_of_lt (h : i < c.height) : dist i (c :: B) = 1 := if_pos h

theorem fwd_cons_of_le (h : ¬ i < c.height) : fwd i (c :: B) = fwd i B := if_neg h

theorem dist_cons_of_le (h : ¬ i < c.height) : dist i (c :: B) = dist i B + 1 := if_neg h

theorem exists_of_not_low (h : ¬ Low i A) :
    ∃ A₁ c A₂, A = A₁ ++ c :: A₂ ∧ Low i A₁ ∧ i < c.height := by
  induction A with
  | nil => exact absurd Low.nil h
  | cons c A ih =>
    by_cases hc : i < c.height
    · exact ⟨[], c, A, rfl, Low.nil, hc⟩
    have hA : ¬ Low i A := fun hA => h fun d hd => by
      rcases mem_cons.mp hd with rfl | hd
      · exact not_lt.mp hc
      · exact hA d hd
    obtain ⟨A₁, d, A₂, rfl, hlow, hd⟩ := ih hA
    refine ⟨c :: A₁, d, A₂, rfl, fun e he => ?_, hd⟩
    rcases mem_cons.mp he with rfl | he
    · exact not_lt.mp hc
    · exact hlow e he

theorem append_not_low (h : ¬ Low i A) (B B' : List (Cell S E)) :
    fwd i (A ++ B) = fwd i (A ++ B') ∧ dist i (A ++ B) = dist i (A ++ B') := by
  obtain ⟨A1, c, A2, rfl, hlow, hc⟩ := exists_of_not_low h
  simp [fwd_append_low hlow, dist_append_low hlow, fwd_cons_of_lt hc, dist_cons_of_lt hc]

theorem exists_of_fwd (h : fwd i A = some a) :
    ∃ A₁ c A₂, A = A₁ ++ c :: A₂ ∧ Low i A₁ ∧ i < c.height ∧ c.addr = a := by
  have hlow : ¬ Low i A := fun hlow => by
    have := fwd_append_low (B := []) hlow
    rw [append_nil, h] at this
    cases this
  obtain ⟨A₁, c, A₂, rfl, h1, hc⟩ := exists_of_not_low hlow
  rw [fwd_append_low h1, fwd_cons_of_lt hc, some.injEq] at h
  exact ⟨A₁, c, A₂, rfl, h1, hc, h⟩

theorem fwd_eq_none_iff : fwd i A = none ↔ Low i A := by
  constructor
  · intro h
    by_contra hlow
    obtain ⟨A1, c, A2, rfl, h1, hc⟩ := exists_of_not_low hlow
    rw [fwd_append_low h1, fwd_cons_of_lt hc] at h
    cases h
  intro h
  have := fwd_append_low (B := []) h
  rwa [append_nil] at this

/-! ## Places -/

/-- The place after the nodes `pre`: the last of them, or the header. -/
def place (pre : List (Cell S E)) : At :=
  match pre.getLast? with
  | none => .header
  | some c => .node c.addr

/-- The number of levels at that place, if the header has `L`. -/
def hgt (L : Nat) (pre : List (Cell S E)) : Nat :=
  match pre.getLast? with
  | none => L
  | some c => c.height

@[simp] theorem place_nil : place ([] : List (Cell S E)) = .header := rfl

@[simp] theorem place_concat : place (A ++ [c]) = .node c.addr := by simp [place]

@[simp] theorem hgt_nil : hgt L ([] : List (Cell S E)) = L := rfl

@[simp] theorem hgt_concat : hgt L (A ++ [c]) = c.height := by simp [hgt]

theorem lt_hgt_of_le (h : i < hgt L' P) (hi : i < L' → i < L) : i < hgt L P := by
  rcases eq_nil_or_concat' P with rfl | ⟨P, c, rfl⟩
  · exact hi h
  · rwa [hgt_concat] at h ⊢

theorem lt_of_lt_hgt (h : i < hgt L P) (hP : ∀ c ∈ P, c.height ≤ L) : i < L := by
  rcases eq_nil_or_concat' P with rfl | ⟨P, c, rfl⟩
  · exact h
  rw [hgt_concat] at h
  exact lt_of_lt_of_le h (hP c (by simp))

theorem Low.eq_nil (h : Low 0 M) (hM : ∀ c ∈ M, 1 ≤ c.height) : M = [] := by
  cases M with
  | nil => rfl
  | cons c M => exact absurd (h c (by simp)) (not_le.mpr (hM c (by simp)))

theorem split_unique (hnd : ((P ++ c :: M).map Cell.addr).Nodup)
    (h : P ++ c :: M = P' ++ d :: M') (ha : c.addr = d.addr) : P = P' := by
  induction P generalizing P' with
  | nil =>
    obtain _ | ⟨e, P'⟩ := P'
    · rfl
    simp only [nil_append, cons_append, List.cons.injEq] at h
    obtain ⟨rfl, rfl⟩ := h
    simp [ha] at hnd
  | cons e P ih =>
    obtain _ | ⟨f, P'⟩ := P'
    · simp only [nil_append, cons_append, List.cons.injEq] at h
      obtain ⟨rfl, rfl⟩ := h
      simp [ha] at hnd
    simp only [cons_append, List.cons.injEq] at h
    obtain ⟨rfl, h⟩ := h
    rw [cons_append, map_cons, nodup_cons] at hnd
    rw [ih hnd.2 h]

theorem place_inj (hnd : (A.map Cell.addr).Nodup) (h : A = P ++ M) (h' : A = P' ++ M')
    (hp : place P = place P') : P = P' := by
  rcases eq_nil_or_concat' P with rfl | ⟨P, c, rfl⟩ <;>
    rcases eq_nil_or_concat' P' with rfl | ⟨P', d, rfl⟩
  · rfl
  · simp at hp
  · simp at hp
  simp only [place_concat, At.node.injEq] at hp
  rw [append_assoc, singleton_append] at h h'
  have hP := split_unique (h ▸ hnd) (h.symm.trans h') hp
  subst hP
  have hcd := append_cancel_left (h.symm.trans h')
  rw [List.cons.injEq] at hcd
  rw [hcd.1]

theorem last_unique (h : P ++ M = P' ++ M') (hM : Low i M) (hM' : Low i M') (hP : i < hgt L P)
    (hP' : i < hgt L P') : P = P' := by
  have key : ∀ {P P' D : List (Cell S E)}, P' = P ++ D → Low i D → i < hgt L P' → P = P' := by
    intro P P' D hD hlow hlt
    rcases eq_nil_or_concat' D with rfl | ⟨D, c, rfl⟩
    · simpa using hD.symm
    rw [hD, ← append_assoc, hgt_concat] at hlt
    exact absurd (hlow c (by simp)) (not_le.mpr hlt)
  rcases append_eq_append_iff.mp h with ⟨D, h1, h2⟩ | ⟨D, h1, h2⟩
  · exact key h1 (fun c hc => hM c (by rw [h2]; simp [hc])) hP'
  · exact (key h1 (fun c hc => hM' c (by rw [h2]; simp [hc])) hP).symm

end

/-! ## Memory -/

section

variable {z z' z'' : Zskiplist S E} {p q : At} {i j : Nat} {l : Level}

/-- The level `i` at a place. -/
def lev (z : Zskiplist S E) : At → Nat → Option Level
  | .header, i => z.header[i]?
  | .node a, i => (z.nodes.get a).bind (·.level[i]?)

def info (n : Node S E) : E × S × Option Nat × Nat := (n.ele, n.score, n.backward, n.level.length)

theorem readLevel_eq (h : lev z p i = some l) : readLevel z p i = .ok l := by
  cases p with
  | header =>
    change z.header[i]? = some l at h
    simp [readLevel, levels, h]
  | node a =>
    obtain ⟨n, hn, hl⟩ := Option.bind_eq_some_iff.mp h
    simp [readLevel, levels, node, hn, hl]

/-- `z'` is `z` with other levels. -/
structure Touched (z z' : Zskiplist S E) : Prop where
  tail : z'.tail = z.tail
  length : z'.length = z.length
  level : z'.level = z.level
  next : z'.nodes.next = z.nodes.next
  info : ∀ a, (z'.nodes.get a).map info = (z.nodes.get a).map info
  header : z'.header.length = z.header.length

theorem Touched.refl (z : Zskiplist S E) : Touched z z := ⟨rfl, rfl, rfl, rfl, fun _ => rfl, rfl⟩

theorem Touched.trans (h : Touched z z') (h' : Touched z' z'') : Touched z z'' :=
  ⟨h'.tail.trans h.tail, h'.length.trans h.length, h'.level.trans h.level, h'.next.trans h.next,
    fun a => (h'.info a).trans (h.info a), h'.header.trans h.header⟩

theorem writeLevel_ok (h : lev z p i = some l₀) (l : Level) :
    ∃ z', writeLevel z p i l = .ok z' ∧ Touched z z' ∧ lev z' p i = some l ∧
      (∀ q j, j ≠ i → lev z' q j = lev z q j) ∧ ∀ q j, q ≠ p → lev z' q j = lev z q j := by
  cases p with
  | header =>
    obtain ⟨hi, -⟩ := List.getElem?_eq_some_iff.mp h
    refine ⟨{ z with header := z.header.set i l }, ?_, ⟨rfl, rfl, rfl, rfl, fun _ => rfl, by simp⟩,
      ?_, fun q j hj => ?_, fun q j hq => ?_⟩
    · simp [writeLevel, levels, hi]
    · simp [lev, hi]
    · cases q with
      | header => simp [lev, getElem?_set_ne (Ne.symm hj)]
      | node a => rfl
    cases q with
    | header => exact absurd rfl hq
    | node a => rfl
  | node a =>
    obtain ⟨n, hn, hl⟩ := Option.bind_eq_some_iff.mp h
    obtain ⟨hi, -⟩ := List.getElem?_eq_some_iff.mp hl
    have hself : ∀ n', (z.nodes.set a n').get a = some n' := fun n' => Heap.get_set_self hn
    have hne : ∀ n' b, b ≠ a → (z.nodes.set a n').get b = z.nodes.get b := fun n' b hb =>
      Heap.get_set_of_ne hb
    refine ⟨{ z with nodes := z.nodes.set a { n with level := n.level.set i l } }, ?_,
      ⟨rfl, rfl, rfl, rfl, fun b => ?_, rfl⟩, ?_, fun q j hj => ?_, fun q j hq => ?_⟩
    · simp [writeLevel, levels, node, hn, hi]
    · by_cases hb : b = a
      · subst hb
        rw [hself, hn]
        simp [info]
      · rw [hne _ b hb]
    · simp [lev, hself, hi]
    · cases q with
      | header => rfl
      | node b =>
        by_cases hb : b = a
        · subst hb
          simp [lev, hself, hn, getElem?_set_ne (Ne.symm hj)]
        · simp [lev, hne _ b hb]
    cases q with
    | header => rfl
    | node b =>
      have hb : b ≠ a := fun e => hq (by rw [e])
      simp [lev, hne _ b hb]

end

/-! ## Levels and search -/

section

variable {ns A B : List (Cell S E)} {i L N : Nat}

/-- Every pointer forward and every span is that of the nodes `ns`; the header has `L` levels. -/
def Levels (z : Zskiplist S E) (L : Nat) (ns : List (Cell S E)) : Prop :=
  ∀ pre post, ns = pre ++ post → ∀ i, i < hgt L pre →
    lev z (place pre) i = some ⟨fwd i post, dist i post % uintSize⟩

variable {c : Cell S E}

theorem Levels.at_node (h : Levels z L (A ++ c :: B)) (hi : i < c.height) :
    lev z (.node c.addr) i = some ⟨fwd i B, dist i B % uintSize⟩ := by
  have := h (A ++ [c]) B (by simp) i (by rwa [hgt_concat])
  rwa [place_concat] at this

/-- The nodes `ns` are in memory. -/
structure Stored (z : Zskiplist S E) (ns : List (Cell S E)) : Prop where
  nodup : (ns.map Cell.addr).Nodup
  node : ∀ pre c post, ns = pre ++ c :: post →
    (z.nodes.get c.addr).map info = some (c.ele, c.score, (place pre).addr, c.height)

theorem Stored.get (h : Stored z ns) (hc : c ∈ ns) :
    ∃ n, z.nodes.get c.addr = some n ∧ n.ele = c.ele ∧ n.score = c.score := by
  obtain ⟨pre, post, rfl⟩ := append_of_mem hc
  obtain ⟨n, hn, hinfo⟩ := Option.map_eq_some_iff.mp (h.node pre c post rfl)
  simp only [info, Prod.mk.injEq] at hinfo
  exact ⟨n, hn, hinfo.1, hinfo.2.1⟩

theorem Stored.lt_next (h : Stored z ns) (hc : c ∈ ns) : c.addr < z.nodes.next := by
  obtain ⟨n, hn, -⟩ := h.get hc
  exact Heap.lt_next hn

theorem Stored.length_le (h : Stored z ns) : ns.length ≤ z.nodes.next := by
  have hsub : ns.map Cell.addr ⊆ List.range z.nodes.next := by
    intro b hb
    obtain ⟨c, hc, rfl⟩ := mem_map.mp hb
    exact mem_range.mpr (h.lt_next hc)
  simpa using (h.nodup.subperm hsub).length_le

/-- A sum `r` of spans counts `k` nodes of `N`. -/
def Counts (N r k : Nat) : Prop := r % uintSize = k % uintSize ∧ (N < uintSize → r = k)

theorem Counts.zero (N : Nat) : Counts N 0 0 := ⟨rfl, fun _ => rfl⟩

variable {r n : Nat} {pass : Nat → S → E → Bool} {pre mid : List (Cell S E)}

theorem Counts.add (h : Counts N r k) (hd : d ≤ N) : Counts N (r + d % uintSize) (k + d) := by
  simp only [Counts, uintSize] at h ⊢
  refine ⟨by omega, fun hN => ?_⟩
  omega

/-- A search passes the nodes `A` and not the nodes `B` after them. -/
structure Passes (pass : Nat → S → E → Bool) (A B : List (Cell S E)) : Prop where
  before : ∀ A₁ c A₂ r, A = A₁ ++ c :: A₂ → Counts (A ++ B).length r (A₁.length + 1) →
    pass r c.score c.ele = true
  after : ∀ B₁ c B₂ r, B = B₁ ++ c :: B₂ →
    Counts (A ++ B).length r (A.length + B₁.length + 1) → pass r c.score c.ele = false

/-- The last place of level `i` in `A`, and how many nodes come before it. -/
structure Last (L N : Nat) (A : List (Cell S E)) (i : Nat) (p : At) (r : Nat) : Prop where
  exists_place : ∃ P M, p = place P ∧ A = P ++ M ∧ Low i M ∧ i < hgt L P ∧ Counts N r P.length

theorem advance_ok (hl : Levels z L (A ++ B)) (hs : Stored z (A ++ B)) (hpass : Passes pass A B)
    (hA : A = pre ++ mid) (hn : mid.length < n) (hi : i < hgt L pre)
    (hr : Counts (A ++ B).length r pre.length) :
    ∃ p r', advance z pass i n (place pre) r = .ok (p, r') ∧ Last L (A ++ B).length A i p r' := by
  induction n generalizing pre mid r with
  | zero => omega
  | succ n ih =>
    have hread := readLevel_eq (hl pre (mid ++ B) (by rw [hA, append_assoc]) i hi)
    rw [advance, hread, ok_bind]
    by_cases hlow : Low i mid
    · -- the next node of this level, if any, is not passed
      have hdone : Last L (A ++ B).length A i (place pre) r := ⟨pre, mid, rfl, hA, hlow, hi, hr⟩
      rw [fwd_append_low hlow]
      rcases hf : fwd i B with _ | a
      · exact ⟨_, _, rfl, hdone⟩
      obtain ⟨B1, c, B2, hB, hlow', hc, rfl⟩ := exists_of_fwd hf
      obtain ⟨nd, hnd, hele, hscore⟩ := hs.get (c := c) (by rw [hB]; simp)
      have hdist : dist i (mid ++ B) = mid.length + (B1.length + 1) := by
        rw [dist_append_low hlow, hB, dist_append_low hlow', dist_cons_of_lt hc]
      have hfalse := hpass.after B1 c B2 (r + dist i (mid ++ B) % uintSize) hB (by
        have hle : dist i (mid ++ B) ≤ (A ++ B).length := by
          rw [hdist, hA, hB]
          simp
          omega
        have := hr.add hle
        rw [hdist] at this ⊢
        have hlen : A.length + B1.length + 1 = pre.length + (mid.length + (B1.length + 1)) := by
          rw [hA, length_append]
          omega
        rw [hlen]
        exact this)
      refine ⟨_, _, ?_, hdone⟩
      simp only [node, hnd, deref_some, ok_bind]
      rw [hscore, hele, if_neg (by rw [hfalse]; simp)]
    obtain ⟨M1, c, M2, rfl, hlow', hc⟩ := exists_of_not_low hlow
    obtain ⟨nd, hnd, hele, hscore⟩ := hs.get (c := c) (by rw [hA]; simp)
    have hfwd : fwd i (M1 ++ c :: M2 ++ B) = some c.addr := by
      rw [append_assoc, fwd_append_low hlow', cons_append, fwd_cons_of_lt hc]
    have hdist : dist i (M1 ++ c :: M2 ++ B) = M1.length + 1 := by
      rw [append_assoc, dist_append_low hlow', cons_append, dist_cons_of_lt hc]
    have hcount : Counts (A ++ B).length (r + (M1.length + 1) % uintSize)
        (pre.length + (M1.length + 1)) := hr.add (by rw [hA]; simp; omega)
    have htrue := hpass.before (pre ++ M1) c M2 (r + (M1.length + 1) % uintSize)
      (by rw [hA, append_assoc]) (by
        have hlen : (pre ++ M1).length + 1 = pre.length + (M1.length + 1) := by
          rw [length_append, add_assoc]
        rw [hlen]
        exact hcount)
    rw [hfwd, hdist]
    simp only [node, hnd, deref_some, ok_bind]
    rw [hscore, hele, if_pos htrue]
    have hplace : At.node c.addr = place (pre ++ M1 ++ [c]) := place_concat.symm
    rw [hplace]
    have hA' : A = pre ++ M1 ++ [c] ++ M2 := by
      rw [hA]
      simp
    refine ih hA' ?_ (by rw [hgt_concat]; exact hc) ?_
    · simp at hn
      omega
    · simpa [add_assoc] using hcount

/-- `update` and `rank` after a search. -/
def Found (L N : Nat) (A : List (Cell S E)) (update : List (At × Nat)) : Prop :=
  ∀ i p r, update[i]? = some (p, r) → Last L N A i p r

theorem searchLevels_ok (hl : Levels z L (A ++ B))
    (hs : Stored z (A ++ B)) (hpass : Passes pass A B)
    (hA : A = pre ++ mid) (hi : n ≤ hgt L pre) (hr : Counts (A ++ B).length r pre.length) :
    ∃ u, searchLevels z pass n (place pre) r = .ok u ∧ u.length = n ∧
      Found L (A ++ B).length A u := by
  induction n generalizing pre mid r with
  | zero => exact ⟨[], rfl, rfl, fun i p r h => by simp at h⟩
  | succ n ih =>
    have hfuel : mid.length < z.nodes.next + 1 := by
      have := hs.length_le
      rw [hA] at this
      simp at this
      omega
    obtain ⟨p, r', hadv, hlast⟩ := advance_ok hl hs hpass hA hfuel (i := n) (by omega) hr
    obtain ⟨P, M, rfl, hA', hlow, hP, hr'⟩ := hlast.exists_place
    obtain ⟨u, hu, hlen, hfound⟩ := ih hA' (by omega) hr'
    refine ⟨u ++ [(place P, r')], ?_, by simp [hlen], fun i q k hq => ?_⟩
    · rw [searchLevels, hadv, ok_bind]
      dsimp only
      rw [hu, ok_bind]
    rcases lt_or_ge i u.length with hlt | hge
    · rw [getElem?_append_left hlt] at hq
      exact hfound i q k hq
    rw [getElem?_append_right hge, getElem?_singleton] at hq
    split at hq
    · next h0 =>
      have hin : i = n := by omega
      cases hq
      rw [hin]
      exact hlast
    · cases hq

theorem search_ok (hl : Levels z z.level (A ++ B))
    (hs : Stored z (A ++ B)) (hpass : Passes pass A B) :
    ∃ u, search z pass = .ok u ∧ u.length = z.level ∧ Found z.level (A ++ B).length A u := by
  have hA : A = [] ++ A := rfl
  exact searchLevels_ok hl hs hpass hA (by simp) (Counts.zero _)

end

/-! ## Writing the levels -/

variable {x h rank0 : Nat}

/-- Level `i` of all places. -/
def row (z : Zskiplist S E) (i : Nat) (q : At) : Option Level := lev z q i

/-- A loop over the levels from `i` on whose turns change one level each. -/
theorem levels_rule {run : Nat → List (At × Nat) → Zskiplist S E → Except Fault (Zskiplist S E)}
    {Pre : Nat → At → Nat → (At → Option Level) → Prop}
    {Post : Nat → At → Nat → (At → Option Level) → (At → Option Level) → Prop}
    (hnil : ∀ i z, run i [] z = .ok z)
    (hturn : ∀ i p r u z, Pre i p r (row z i) → ∃ z', run i ((p, r) :: u) z = run (i + 1) u z' ∧
      Touched z z' ∧ (∀ j, j ≠ i → row z' j = row z j) ∧ Post i p r (row z i) (row z' i))
    {u : List (At × Nat)} {i : Nat}
    (hu : ∀ j p r, u[j]? = some (p, r) → Pre (i + j) p r (row z (i + j))) :
    ∃ z', run i u z = .ok z' ∧ Touched z z' ∧ (∀ j, j < i ∨ i + u.length ≤ j → row z' j = row z j) ∧
      ∀ j p r, u[j]? = some (p, r) → Post (i + j) p r (row z (i + j)) (row z' (i + j)) := by
  induction u generalizing i z with
  | nil => exact ⟨z, hnil i z, .refl z, fun _ _ => rfl, by simp⟩
  | cons e u ih =>
    obtain ⟨p, r⟩ := e
    have hadd (j : Nat) : i + (j + 1) = i + 1 + j := by omega
    obtain ⟨z1, hrun, ht1, hrow1, hpost⟩ := hturn i p r u z (hu 0 p r rfl)
    obtain ⟨z2, hz2, ht2, hrow2, hposts⟩ := ih (z := z1) (i := i + 1) fun j q k hq => by
      rw [hrow1 _ (by omega), ← hadd]
      exact hu (j + 1) q k hq
    refine ⟨z2, hrun.trans hz2, ht1.trans ht2, fun j hj => ?_, fun j q k hq => ?_⟩
    · rw [length_cons] at hj
      rw [hrow2 j (by omega), hrow1 j (by omega)]
    obtain _ | j := j
    · cases hq
      rw [add_zero, hrow2 i (by omega)]
      exact hpost
    rw [hadd, ← hrow1 _ (by omega)]
    exact hposts j q k hq

theorem insertLevels_ok {u : List (At × Nat)}
    (hu : ∀ j p r, u[j]? = some (p, r) → p ≠ .node x ∧ ∃ l, lev z p j = some l)
    (hx : ∀ j, j < h → ∃ l, lev z (.node x) j = some l) :
    ∃ z', insertLevels x h rank0 0 u z = .ok z' ∧ Touched z z' ∧
      (∀ q j, q ≠ .node x → (∀ r, u[j]? ≠ some (q, r)) → lev z' q j = lev z q j) ∧
      ∀ j p r l, u[j]? = some (p, r) → lev z p j = some l →
        (j < h → lev z' p j = some ⟨some x, (usub rank0 r + 1) % uintSize⟩ ∧
          lev z' (.node x) j = some ⟨l.forward, usub l.span (usub rank0 r)⟩) ∧
        (h ≤ j → lev z' p j = some ⟨l.forward, (l.span + 1) % uintSize⟩) := by
  refine (@levels_rule _ _ z (insertLevels x h rank0)
    (fun i p _ old => (p ≠ .node x ∧ ∃ l, old p = some l) ∧ (i < h → ∃ l, old (.node x) = some l))
    (fun i p r old new => (∀ q, q ≠ .node x → q ≠ p → new q = old q) ∧ ∀ l, old p = some l →
      (i < h → new p = some ⟨some x, (usub rank0 r + 1) % uintSize⟩ ∧
        new (.node x) = some ⟨l.forward, usub l.span (usub rank0 r)⟩) ∧
      (h ≤ i → new p = some ⟨l.forward, (l.span + 1) % uintSize⟩))
    (fun _ _ => rfl) ?_ u 0 ?_).elim ?_
  · rintro i p r u z ⟨⟨hpx, l, hl⟩, hx⟩
    by_cases hih : i < h
    · obtain ⟨l0, hl0⟩ := hx hih
      obtain ⟨z1, hw1, ht1, hval1, hlev1, hplace1⟩ :=
        writeLevel_ok hl0 ⟨l.forward, usub l.span (usub rank0 r)⟩
      obtain ⟨z2, hw2, ht2, hval2, hlev2, hplace2⟩ :=
        writeLevel_ok ((hplace1 p i hpx).trans hl) ⟨some x, (usub rank0 r + 1) % uintSize⟩
      refine ⟨z2, ?_, ht1.trans ht2, fun j hj => funext fun q => (hlev2 q j hj).trans (hlev1 q j hj),
        fun q hqx hqp => (hplace2 q i hqp).trans (hplace1 q i hqx), fun l' hl' => ?_⟩
      · rw [insertLevels, readLevel_eq hl, ok_bind, if_pos hih, hw1, ok_bind, hw2, ok_bind]
      cases hl.symm.trans hl'
      exact ⟨fun _ => ⟨hval2, (hplace2 _ i (Ne.symm hpx)).trans hval1⟩, fun hle => by omega⟩
    obtain ⟨z1, hw1, ht1, hval1, hlev1, hplace1⟩ :=
      writeLevel_ok hl ⟨l.forward, (l.span + 1) % uintSize⟩
    refine ⟨z1, ?_, ht1, fun j hj => funext fun q => hlev1 q j hj, fun q _ hqp => hplace1 q i hqp,
      fun l' hl' => ?_⟩
    · rw [insertLevels, readLevel_eq hl, ok_bind, if_neg hih, hw1, ok_bind]
    cases hl.symm.trans hl'
    exact ⟨fun hlt => absurd hlt hih, fun _ => hval1⟩
  · intro j p r hj
    rw [zero_add]
    exact ⟨hu j p r hj, hx j⟩
  rintro z' ⟨hz', ht, hrow, hpost⟩
  simp only [zero_add] at hpost
  refine ⟨z', hz', ht, fun q j hqx hq => ?_, fun j p r l hj => (hpost j p r hj).2 l⟩
  rcases hj : u[j]? with _ | e
  · exact congrFun (hrow j (.inr (by simpa using hj))) q
  exact (hpost j e.1 e.2 hj).1 q hqx fun hqe => hq e.2 (by rw [hj, hqe])

theorem unlinkLevels_ok {u : List (At × Nat)}
    (hu : ∀ j p r, u[j]? = some (p, r) → p ≠ .node x ∧ ∃ l, lev z p j = some l ∧
      (l.forward = some x → ∃ lx, lev z (.node x) j = some lx)) :
    ∃ z', unlinkLevels x 0 u z = .ok z' ∧ Touched z z' ∧
      (∀ j, lev z' (.node x) j = lev z (.node x) j) ∧
      (∀ q j, (∀ r, u[j]? ≠ some (q, r)) → lev z' q j = lev z q j) ∧
      ∀ j p r l, u[j]? = some (p, r) → lev z p j = some l →
        (l.forward = some x → ∀ lx, lev z (.node x) j = some lx →
          lev z' p j = some ⟨lx.forward, usub (l.span + lx.span) 1⟩) ∧
        (l.forward ≠ some x → lev z' p j = some ⟨l.forward, usub l.span 1⟩) := by
  refine (@levels_rule _ _ z (unlinkLevels x)
    (fun _ p _ old => p ≠ .node x ∧ ∃ l, old p = some l ∧
      (l.forward = some x → ∃ lx, old (.node x) = some lx))
    (fun _ p _ old new => (∀ q, q ≠ p → new q = old q) ∧ ∀ l, old p = some l →
      (l.forward = some x → ∀ lx, old (.node x) = some lx →
        new p = some ⟨lx.forward, usub (l.span + lx.span) 1⟩) ∧
      (l.forward ≠ some x → new p = some ⟨l.forward, usub l.span 1⟩))
    (fun _ _ => rfl) ?_ u 0 ?_).elim ?_
  · rintro i p r u z ⟨hpx, l, hl, hlx⟩
    by_cases hf : l.forward = some x
    · obtain ⟨lx, hlx⟩ := hlx hf
      obtain ⟨z1, hw1, ht1, hval1, hlev1, hplace1⟩ :=
        writeLevel_ok hl ⟨lx.forward, usub (l.span + lx.span) 1⟩
      refine ⟨z1, ?_, ht1, fun j hj => funext fun q => hlev1 q j hj, fun q => hplace1 q i,
        fun l' hl' => ?_⟩
      · rw [unlinkLevels, readLevel_eq hl, ok_bind, if_pos hf, readLevel_eq hlx, ok_bind, hw1,
          ok_bind]
      cases hl.symm.trans hl'
      refine ⟨fun _ lx' hlx' => ?_, fun hne => absurd hf hne⟩
      cases hlx.symm.trans hlx'
      exact hval1
    obtain ⟨z1, hw1, ht1, hval1, hlev1, hplace1⟩ := writeLevel_ok hl ⟨l.forward, usub l.span 1⟩
    refine ⟨z1, ?_, ht1, fun j hj => funext fun q => hlev1 q j hj, fun q => hplace1 q i,
      fun l' hl' => ?_⟩
    · rw [unlinkLevels, readLevel_eq hl, ok_bind, if_neg hf, hw1, ok_bind]
    cases hl.symm.trans hl'
    exact ⟨fun h => absurd h hf, fun _ => hval1⟩
  · intro j p r hj
    rw [zero_add]
    exact hu j p r hj
  rintro z' ⟨hz', ht, hrow, hpost⟩
  simp only [zero_add] at hpost
  have hothers : ∀ q j, (∀ r, u[j]? ≠ some (q, r)) → lev z' q j = lev z q j := fun q j hq => by
    rcases hj : u[j]? with _ | e
    · exact congrFun (hrow j (.inr (by simpa using hj))) q
    exact (hpost j e.1 e.2 hj).1 q fun hqe => hq e.2 (by rw [hj, hqe])
  exact ⟨z', hz', ht, fun j => hothers _ j fun r hj => (hu j _ r hj).1 rfl, hothers,
    fun j p r l hj => (hpost j p r hj).2 l⟩

end UfsRedis.Skiplist

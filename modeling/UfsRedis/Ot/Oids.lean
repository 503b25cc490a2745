import UfsRedis.Ot.Space

/-!
# Contexts and object identifiers

A context is the text `init,o1,o2,…` of the operations applied so far, in the order in which some
client has them. `ctxText` writes it.

* `oidText_prefix`: an `oid` is the beginning of another only if both are from one client, and the
  second is not the earlier of the two;
* `findOid_ctxText`: `findOid` finds an `oid` that is the beginning of one in the context;
* `findOid_exact_iff`: when this is the same as being one of the context;
* `oidscmp_perm`: `oidscmp` accepts any order of the same operations.
-/

namespace UfsRedis

open List

/-! ## Numbers -/

def digitsVal (cs : List Char) : Nat := cs.foldl (fun a c => 10 * a + (c.toNat - 48)) 0

theorem le_foldl_digits (cs : List Char) (a : Nat) :
    a ≤ cs.foldl (fun a c => 10 * a + (c.toNat - 48)) a := by
  induction cs generalizing a with
  | nil => exact le_rfl
  | cons c cs ih => exact le_trans (by dsimp only; omega) (ih _)

theorem digitsVal_le_of_prefix (h : cs <+: ds) : digitsVal cs ≤ digitsVal ds := by
  obtain ⟨t, rfl⟩ := h
  rw [digitsVal, digitsVal, foldl_append]
  exact le_foldl_digits t _

variable {fuel n k port num m : Nat} {c : Char} {v : Int} {os : List Sds} {s : Sds}
  {x y : Nat × Nat}

theorem digitsVal_itosDigits (h : n ≤ fuel) : digitsVal (itosDigits fuel n).reverse = n := by
  induction fuel generalizing n with
  | zero =>
    have : n = 0 := by omega
    simp [itosDigits, digitsVal, this]
  | succ fuel ih =>
    rw [itosDigits]
    by_cases hn : n > 0
    · have hd : (Nat.digitChar (n % 10)).toNat = n % 10 + 48 := by
        rw [Nat.toNat_digitChar_of_lt_ten (by omega)]
        omega
      have := ih (n := n / 10) (by omega)
      rw [digitsVal] at this ⊢
      rw [if_pos hn, reverse_cons, foldl_append, this, foldl_cons, foldl_nil, hd]
      omega
    have : n = 0 := by omega
    simp [digitsVal, this]

theorem digitsVal_itos (v : Int) : digitsVal (itos v) = v.toNat := digitsVal_itosDigits le_rfl

theorem digitChar_ne (hn : n < 10) (hc : c.toNat < 48 ∨ 58 ≤ c.toNat) : Nat.digitChar n ≠ c := by
  intro h
  have := Nat.toNat_digitChar_of_lt_ten hn
  rw [h] at this
  omega

theorem not_mem_itosDigits (hc : c.toNat < 48 ∨ 58 ≤ c.toNat) (fuel n : Nat) :
    c ∉ itosDigits fuel n := by
  induction fuel generalizing n with
  | zero => simp [itosDigits]
  | succ fuel ih =>
    rw [itosDigits]
    by_cases hn : n > 0
    · rw [if_pos hn, mem_cons]
      rintro (h | h)
      · exact digitChar_ne (Nat.mod_lt n (by decide)) hc h.symm
      · exact ih _ h
    · simp [hn]

theorem not_mem_itos (hc : c.toNat < 48 ∨ 58 ≤ c.toNat) (v : Int) : c ∉ itos v := by
  rw [itos, mem_reverse]
  exact not_mem_itosDigits hc _ _

theorem length_itosDigits_le (fuel : Nat) (h : n < 10 ^ k) : (itosDigits fuel n).length ≤ k := by
  induction fuel generalizing n k with
  | zero => simp [itosDigits]
  | succ fuel ih =>
    rw [itosDigits]
    by_cases hn : n > 0
    · obtain _ | k := k
      · simp at h; omega
      rw [if_pos hn, length_cons]
      exact Nat.succ_le_succ (ih (by rw [pow_succ] at h; omega))
    · simp [hn]

theorem le_length_itosDigits (h : 10 ^ k ≤ n) (hf : k < fuel) : k < (itosDigits fuel n).length := by
  induction k generalizing n fuel with
  | zero =>
    obtain ⟨f, rfl⟩ : ∃ f, fuel = f + 1 := ⟨fuel - 1, by omega⟩
    rw [itosDigits, if_pos (by omega)]
    exact Nat.succ_pos _
  | succ k ih =>
    obtain ⟨f, rfl⟩ : ∃ f, fuel = f + 1 := ⟨fuel - 1, by omega⟩
    have hpos : 0 < 10 ^ k := Nat.pow_pos (by decide)
    rw [pow_succ] at h
    rw [itosDigits, if_pos (by omega), length_cons]
    exact Nat.succ_lt_succ (ih (by omega) (by omega))

theorem itosBuf_eq (h : v ≤ 9999) : itosBuf v 5 = .ok (itos v) := by
  rw [itosBuf, if_pos]
  rw [itos, length_reverse]
  exact Nat.lt_succ_of_le (length_itosDigits_le (k := 4) _ (by omega))

theorem itosBuf_eq_ok : itosBuf v 5 = .ok t ↔ v ≤ 9999 ∧ t = itos v := by
  by_cases hv : v ≤ 9999
  · rw [itosBuf_eq hv, Except.ok.injEq, and_iff_right hv, eq_comm]
  have hlen : ¬ (itos v).length < 5 := by
    rw [itos, length_reverse, not_lt]
    exact le_length_itosDigits (k := 4) (by omega) (by omega)
  rw [itosBuf, if_neg hlen]
  simp [hv]

/-! ## Object identifiers -/

/-- The `oid` of an operation, where the buffers are large enough. -/
def oidText (port num : Nat) : Sds := itos (port - 6379) ++ '_' :: itos num

theorem createOid_eq (hp : port ≤ 16378) (hn : num ≤ 9999) :
    createOid port num = .ok (oidText port num) := by
  rw [createOid, portBuf, opNumBuf, itosBuf_eq (by omega), itosBuf_eq (by omega)]
  rfl

theorem createOid_eq_ok :
    createOid port num = .ok oid ↔ port ≤ 16378 ∧ num ≤ 9999 ∧ oid = oidText port num := by
  constructor
  · intro h
    simp only [createOid, portBuf, opNumBuf, bind_eq_ok, itosBuf_eq_ok, Except.ok.injEq] at h
    obtain ⟨p, ⟨hp, rfl⟩, t, ⟨hn, rfl⟩, rfl⟩ := h
    exact ⟨by omega, by omega, rfl⟩
  rintro ⟨hp, hn, rfl⟩
  exact createOid_eq hp hn

theorem comma_not_mem_oidText (port num : Nat) : ',' ∉ oidText port num := by
  rw [oidText, mem_append, mem_cons]
  rintro (h | h | h)
  · exact not_mem_itos (by decide) _ h
  · exact absurd h (by decide)
  · exact not_mem_itos (by decide) _ h

theorem prefix_append_sep (ha : c ∉ a) (ha' : c ∉ a')
    (h : a ++ c :: b <+: a' ++ c :: b') : a = a' ∧ b <+: b' := by
  induction a generalizing a' with
  | nil =>
    obtain _ | ⟨x, a'⟩ := a'
    · exact ⟨rfl, (cons_prefix_cons.mp h).2⟩
    have := (cons_prefix_cons.mp h).1
    exact absurd (by simp [this]) ha'
  | cons x a ih =>
    obtain _ | ⟨y, a'⟩ := a'
    · have := (cons_prefix_cons.mp h).1
      exact absurd (by simp [this]) ha
    rw [cons_append, cons_append, cons_prefix_cons] at h
    rw [mem_cons, not_or] at ha ha'
    obtain ⟨rfl, hb⟩ := ih ha.2 ha'.2 h.2
    exact ⟨by rw [h.1], hb⟩

/-- An `oid` is the beginning of another only if both are from one client, and the second is not
the earlier one. Without the ports above 6379 the part before `_` is empty for every client. -/
theorem oidText_prefix (hp : 6379 < p) (hq : 6379 < q)
    (h : oidText p m <+: oidText q n) : p = q ∧ m ≤ n := by
  obtain ⟨h1, h2⟩ := prefix_append_sep (not_mem_itos (by decide) _)
    (not_mem_itos (by decide) _) h
  have hv := congrArg digitsVal h1
  rw [digitsVal_itos, digitsVal_itos] at hv
  have hm := digitsVal_le_of_prefix h2
  rw [digitsVal_itos, digitsVal_itos] at hm
  omega

/-! ## Contexts -/

def ctxText (os : List Sds) : Sds := initOids ++ os.flatMap fun o => ',' :: o

@[simp] theorem ctxText_nil : ctxText [] = initOids := rfl

theorem catOid_ctxText (os : List Sds) (o : Sds) : catOid (ctxText os) o = ctxText (os ++ [o]) := by
  simp [catOid, ctxText]

theorem ctxText_eq_sdsjoin (os : List Sds) : ctxText os = sdsjoin (initOids :: os) ',' := by
  have h : ∀ (x : Sds) (os : List Sds), sdsjoin (x :: os) ',' =
      x ++ os.flatMap fun o => ',' :: o := by
    intro x os
    induction os generalizing x with
    | nil => simp
    | cons o os ih => rw [sdsjoin_cons x (by simp), ih o, flatMap_cons, cons_append]
  exact (h initOids os).symm

theorem sdssplit_ctxText (h : ∀ o ∈ os, ',' ∉ o) : sdssplit (ctxText os) ',' = initOids :: os := by
  rw [sdssplit, if_neg (by simp [ctxText, initOids]), ctxText_eq_sdsjoin]
  refine splitOn_intercalate ',' (fun x hx => ?_) (by simp)
  rcases mem_cons.mp hx with rfl | hx
  · decide
  · exact h x hx

theorem length_ctxText (os : List Sds) :
    (ctxText os).length = 4 + (os.map fun o => o.length + 1).sum := by
  simp only [ctxText, length_append, length_flatMap, length_cons]
  rfl

theorem infix_append_of_not_mem (hw : c ∉ w) : c :: s <:+: w ++ r ↔ c :: s <:+: r := by
  induction w with
  | nil => rfl
  | cons x w ih =>
    rw [mem_cons, not_or] at hw
    rw [cons_append, infix_cons_iff, cons_prefix_cons, ih hw.2]
    simp [hw.1]

theorem prefix_append_flatMap (hs : ',' ∉ s) (os : List Sds) :
    s <+: o ++ os.flatMap (fun o => ',' :: o) ↔ s <+: o := by
  constructor
  · intro h
    induction s generalizing o with
    | nil => exact nil_prefix
    | cons c s ih =>
      rw [mem_cons, not_or] at hs
      obtain _ | ⟨x, o⟩ := o
      · cases os with
        | nil => exact h
        | cons o os => exact absurd (cons_prefix_cons.mp h).1.symm hs.1
      rw [cons_append, cons_prefix_cons] at h
      exact cons_prefix_cons.mpr ⟨h.1, ih hs.2 h.2⟩
  · exact fun h => h.trans (prefix_append _ _)

theorem findOid_ctxText (hos : ∀ o ∈ os, ',' ∉ o) (hs : ',' ∉ s) :
    findOid (ctxText os) s = true ↔ ∃ o ∈ os, s <+: o := by
  rw [findOid, strstr_iff, ctxText, infix_append_of_not_mem (by decide)]
  induction os with
  | nil => simp
  | cons o os ih =>
    rw [flatMap_cons, cons_append, infix_cons_iff, cons_prefix_cons, prefix_append_flatMap hs,
      infix_append_of_not_mem (hos o (by simp)), ih fun o ho => hos o (by simp [ho])]
    simp

/-! ## Closed contexts -/

/-- The `oid` of the operation with number `x.2` of the client that listens on port `x.1`. -/
def opText (x : Nat × Nat) : Sds := oidText x.1 x.2

/-- With an operation of a client, `ids` has all its earlier ones of the key, whose operations are
`ops`. -/
def CausallyClosed (ops ids : List (Nat × Nat)) : Prop :=
  ∀ x ∈ ops, ∀ y ∈ ids, x.1 = y.1 → x.2 < y.2 → x ∈ ids

/-- On the closed contexts of a key, `findOid` tells which of its operations are listed. -/
def FindOidExact (ops : List (Nat × Nat)) : Prop :=
  ∀ ids ⊆ ops, CausallyClosed ops ids → ∀ x ∈ ops,
    (findOid (ctxText (ids.map opText)) (opText x) = true ↔ opText x ∈ ids.map opText)

/-- An `oid` is the beginning of another iff the distances of the ports are written alike and the
number of the first is the beginning of the number of the second. -/
theorem opText_prefix_iff : opText x <+: opText y ↔
    (x.1 = y.1 ∨ x.1 ≤ 6379 ∧ y.1 ≤ 6379) ∧ itos x.2 <+: itos y.2 := by
  constructor
  · intro h
    obtain ⟨hport, hnum⟩ := prefix_append_sep (not_mem_itos (by decide) _)
      (not_mem_itos (by decide) _) h
    have hv := congrArg digitsVal hport
    rw [digitsVal_itos, digitsVal_itos] at hv
    exact ⟨by omega, hnum⟩
  rintro ⟨hport, hnum⟩
  have htext : itos ((x.1 : Int) - 6379) = itos ((y.1 : Int) - 6379) := by
    rcases hport with hport | ⟨hx, hy⟩
    · rw [hport]
    rw [itos, itos, show ((x.1 : Int) - 6379).toNat = 0 by omega,
      show ((y.1 : Int) - 6379).toNat = 0 by omega]
  rw [opText, opText, oidText, oidText, htext, prefix_append_right_inj, cons_prefix_cons]
  exact ⟨rfl, hnum⟩

theorem le_of_prefix_itos (h : itos m <+: itos n) : m ≤ n := by
  have := digitsVal_le_of_prefix h
  rw [digitsVal_itos, digitsVal_itos] at this
  omega

theorem opText_eq_iff :
    opText x = opText y ↔ (x.1 = y.1 ∨ x.1 ≤ 6379 ∧ y.1 ≤ 6379) ∧ x.2 = y.2 := by
  constructor
  · intro h
    obtain ⟨hport, hle⟩ := opText_prefix_iff.mp (h ▸ prefix_rfl : opText x <+: opText y)
    obtain ⟨-, hge⟩ := opText_prefix_iff.mp (h ▸ prefix_rfl : opText y <+: opText x)
    exact ⟨hport, le_antisymm (le_of_prefix_itos hle) (le_of_prefix_itos hge)⟩
  rintro ⟨hport, hnum⟩
  have h : opText x <+: opText y := opText_prefix_iff.mpr ⟨hport, hnum ▸ prefix_rfl⟩
  have h' : opText y <+: opText x :=
    opText_prefix_iff.mpr ⟨hport.imp Eq.symm And.symm, hnum ▸ prefix_rfl⟩
  exact h.eq_of_length (le_antisymm h.length_le h'.length_le)

theorem comma_not_mem_opText (x : Nat × Nat) : ',' ∉ opText x := comma_not_mem_oidText _ _

theorem findOid_opText {ids : List (Nat × Nat)} :
    findOid (ctxText (ids.map opText)) (opText x) = true ↔ ∃ y ∈ ids, opText x <+: opText y := by
  have hcomma : ∀ o ∈ ids.map opText, ',' ∉ o := by
    intro o ho
    obtain ⟨y, -, rfl⟩ := mem_map.mp ho
    exact comma_not_mem_opText y
  rw [findOid_ctxText hcomma (comma_not_mem_opText x)]
  simp only [mem_map, exists_exists_and_eq_and]

theorem causallyClosed_filter (ops : List (Nat × Nat)) (y : Nat × Nat) :
    CausallyClosed ops (ops.filter fun z => z.1 = y.1 ∧ z.2 ≤ y.2) := by
  intro x hx z hz hport hlt
  have hz := of_decide_eq_true (mem_filter.mp hz).2
  exact mem_filter.mpr ⟨hx, decide_eq_true ⟨hport.trans hz.1, by omega⟩⟩

/-- **`findOid` on closed contexts.** It tells exactly which operations of the key are listed iff,
where the number of one client with a port up to 6379 is the beginning of that of another such
client, the other one has an operation of the first number too. -/
theorem findOid_exact_iff (ops : List (Nat × Nat)) : FindOidExact ops ↔
    ∀ x ∈ ops, ∀ y ∈ ops, x.1 ≠ y.1 → x.1 ≤ 6379 → y.1 ≤ 6379 → itos x.2 <+: itos y.2 →
      (y.1, x.2) ∈ ops := by
  constructor
  · intro h x hx y hy _ hx6 hy6 hnum
    -- the least closed context with `y`
    have hfound := (h _ (filter_subset_self ops) (causallyClosed_filter ops y) x hx).mp
      (findOid_opText.mpr ⟨y, mem_filter.mpr ⟨hy, by simp⟩,
        opText_prefix_iff.mpr ⟨.inr ⟨hx6, hy6⟩, hnum⟩⟩)
    obtain ⟨z, hz, htext⟩ := mem_map.mp hfound
    obtain ⟨hzops, hzy⟩ := mem_filter.mp hz
    have hport : z.1 = y.1 := (of_decide_eq_true hzy).1
    have hnum' : z.2 = x.2 := (opText_eq_iff.mp htext).2
    rwa [← hport, ← hnum']
  intro h ids hids hclosed x hx
  rw [findOid_opText, mem_map]
  constructor
  · rintro ⟨y, hy, hpre⟩
    obtain ⟨hport, hnum⟩ := opText_prefix_iff.mp hpre
    -- the operation of the client of `y` that is written like `x`
    have hmem : (y.1, x.2) ∈ ops := by
      by_cases hxy : x.1 = y.1
      · rwa [← hxy]
      obtain ⟨hx6, hy6⟩ := hport.resolve_left hxy
      exact h x hx y (hids hy) hxy hx6 hy6 hnum
    rcases Nat.lt_or_eq_of_le (le_of_prefix_itos hnum) with hlt | heq
    · refine ⟨(y.1, x.2), hclosed _ hmem y hy rfl hlt, opText_eq_iff.mpr ⟨?_, rfl⟩⟩
      exact hport.imp Eq.symm And.symm
    · exact ⟨y, hy, opText_eq_iff.mpr ⟨hport.imp Eq.symm And.symm, heq.symm⟩⟩
  rintro ⟨y, hy, htext⟩
  exact ⟨y, hy, htext ▸ prefix_rfl⟩

/-- The tenth operation of the client on port 6378 is the only one of it on this key, and the first
one of the client on port 6379 is taken for listed with it. -/
theorem findOid_not_exact : ¬ FindOidExact [(6378, 10), (6379, 1)] := by
  intro h
  have := h [(6378, 10)] (by simp) (by simp [CausallyClosed]) (6379, 1) (by simp)
  exact absurd this (by decide)

/-! ## Comparison of contexts -/

theorem sdslistsds_mem {list v} (h : some v ∈ list) :
    ∃ list', sdslistsds list v list.length = .ok (true, list') ∧ list'.length = list.length ∧
      (list.filterMap id).Perm (v :: list'.filterMap id) := by
  induction list with
  | nil => simp at h
  | cons x list ih =>
    rw [length_cons, sdslistsds]
    by_cases hx : x = some v
    · exact ⟨none :: list, by rw [if_pos hx], rfl, by simp [hx]⟩
    obtain ⟨list', he, hlen, hperm⟩ := ih ((mem_cons.mp h).resolve_left (Ne.symm hx))
    refine ⟨x :: list', by rw [if_neg hx, he]; rfl, by simp [hlen], ?_⟩
    obtain _ | y := x
    · simpa using hperm
    simpa using (hperm.cons y).trans (.swap ..)

theorem oidsLoop_perm {oids1 oids2}
    (h : oids1.Perm (oids2.filterMap id)) : oidsLoop oids2.length oids1 oids2 = .ok true := by
  induction oids1 generalizing oids2 with
  | nil => rfl
  | cons o oids1 ih =>
    have hmem : some o ∈ oids2 := by
      have := h.mem_iff.mp (mem_cons_self (a := o))
      simpa using this
    obtain ⟨oids2', he, hlen, hperm⟩ := sdslistsds_mem hmem
    rw [oidsLoop, he, ← hlen]
    exact ih ((h.trans hperm).cons_inv)

theorem oidscmp_perm (h : os.Perm os') (hos : ∀ o ∈ os, ',' ∉ o) :
    oidscmp (ctxText os) (ctxText os') = .ok true := by
  rw [oidscmp, sdssplit_ctxText hos, sdssplit_ctxText fun o ho => hos o (h.mem_iff.mpr ho)]
  have hlen : (initOids :: os).length = ((initOids :: os').map some).length := by
    simp [h.length_eq]
  rw [hlen]
  refine oidsLoop_perm ?_
  rw [filterMap_map]
  simpa using h

end UfsRedis

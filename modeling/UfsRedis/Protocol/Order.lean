import UfsRedis.Protocol.Link

/-!
# The order of operations at the server

The server processes the operations of a key in some order `Ω`. The operations of each client are in
it in the order of their numbers, and each link has them as `LinkIds` says: on side `l` those of the
client, on side `r` those of the others, in the order of `Ω`.
-/

namespace UfsRedis

open List Lib Coord

/-- An operation: the number of its client, and its number there. -/
abbrev OpId := Nat × Nat

/-- The `oid` of an operation, where `ports` are the ports of the clients. -/
def idText (ports : List Nat) (x : OpId) : Sds := oidText (ports.getD x.1 0) x.2

/-- The ports of the clients differ, and their distances from 6379 are positive numbers of at most
four digits. -/
structure PortsOk (ports : List Nat) : Prop where
  nodup : ports.Nodup
  range : ∀ p ∈ ports, 6379 < p ∧ p ≤ 16378

/-- The operations of each client come in the order of their numbers. -/
structure OrderOk (ports : List Nat) (Ω : List OpId) : Prop where
  sorted : Ω.Pairwise fun x y => x.1 = y.1 → x.2 < y.2
  clients : ∀ x ∈ Ω, x.1 < ports.length

/-- The operations on the link of client `i`: `nums` are the numbers of its own, of which the server
has processed the first `arrived`. -/
structure LinkIds (ports : List Nat) (i : Nat) (Ω : List OpId) (nums : List Nat) (H : History)
    (arrived : Nat) : Prop where
  own : (H .l).map OpRec.oid = nums.map fun k => idText ports (i, k)
  others : (H .r).map OpRec.oid = (Ω.filter (·.1 ≠ i)).map (idText ports)
  sorted : nums.Pairwise (· < ·)
  done : nums.take arrived = (Ω.filter (·.1 = i)).map Prod.snd

def sideIds (i : Nat) (nums : List Nat) (Ω : List OpId) : Side → List OpId
  | .l => nums.map fun k => (i, k)
  | .r => Ω.filter (·.1 ≠ i)

variable {ports nums : List Nat} {Ω : List OpId} {H : History} {arrived i j num : Nat} {r : OpRec}
  {x y : OpId}

section

variable (h : PortsOk ports)
include h

theorem PortsOk.range_getD (hi : i < ports.length) :
    6379 < ports.getD i 0 ∧ ports.getD i 0 ≤ 16378 := by
  rw [getD_eq_getElem _ _ hi]
  exact h.range _ (getElem_mem hi)

theorem PortsOk.inj (hi : i < ports.length) (hj : j < ports.length)
    (he : ports.getD i 0 = ports.getD j 0) : i = j := by
  rw [getD_eq_getElem _ _ hi, getD_eq_getElem _ _ hj] at he
  exact (h.nodup.getElem_inj_iff).mp he

theorem idText_prefix (hx : x.1 < ports.length) (hy : y.1 < ports.length)
    (hp : idText ports x <+: idText ports y) : x.1 = y.1 ∧ x.2 ≤ y.2 := by
  obtain ⟨h1, h2⟩ := oidText_prefix (h.range_getD hx).1 (h.range_getD hy).1 hp
  exact ⟨h.inj hx hy h1, h2⟩

theorem oidsOk_of_ids (ids : Side → List OpId)
    (hH : ∀ s, (H s).map OpRec.oid = (ids s).map (idText ports))
    (hclients : ∀ s, ∀ x ∈ ids s, x.1 < ports.length)
    (hsorted : ∀ s, (ids s).Pairwise fun x y => x.1 = y.1 → x.2 < y.2)
    (hdisj : ∀ s, ∀ x ∈ ids s, ∀ y ∈ ids s.flip, x.1 ≠ y.1) : H.OidsOk := by
  have hlen : ∀ s, (H s).length = (ids s).length := fun s => by
    simpa using congrArg List.length (hH s)
  have hoid : ∀ s k, (hk : k < (ids s).length) → H.oid s k = idText ports (ids s)[k] := by
    intro s k hk
    rw [History.oid, hH, getD_eq_getElem _ _ (by simpa using hk), getElem_map]
  refine ⟨fun s r hr => ?_, fun s t a b ha hb hp => ?_⟩
  · have : r.oid ∈ (H s).map OpRec.oid := mem_map_of_mem hr
    rw [hH] at this
    obtain ⟨x, -, hx⟩ := mem_map.mp this
    rw [← hx]
    exact comma_not_mem_oidText _ _
  rw [hlen] at ha hb
  rw [hoid s a ha, hoid t b hb] at hp
  have hma := getElem_mem ha
  have hmb := getElem_mem hb
  obtain ⟨h1, h2⟩ := idText_prefix h (hclients s _ hma) (hclients t _ hmb) hp
  rcases s.eq_or_eq_flip t with rfl | rfl
  · refine ⟨rfl, ?_⟩
    by_contra hlt
    have := pairwise_iff_getElem.mp (hsorted t) b a hb ha (by omega) h1.symm
    omega
  · exact absurd h1 (hdisj s _ hma _ hmb)

end

variable (h : LinkIds ports i Ω nums H arrived)
include h

theorem LinkIds.oidsOk (hp : PortsOk ports)
    (hΩ : OrderOk ports Ω) (hi : i < ports.length) : H.OidsOk := by
  refine oidsOk_of_ids hp (sideIds i nums Ω) (fun s => ?_) (fun s x hx => ?_) (fun s => ?_)
    fun s x hx y hy hxy => ?_
  · cases s with
    | l => rw [h.own, sideIds, map_map]; rfl
    | r => exact h.others
  · cases s with
    | l =>
      obtain ⟨k, -, rfl⟩ := mem_map.mp hx
      exact hi
    | r => exact hΩ.clients x (mem_of_mem_filter hx)
  · cases s with
    | l =>
      refine pairwise_map.mpr (List.Pairwise.imp ?_ h.sorted)
      exact fun hlt _ => hlt
    | r => exact hΩ.sorted.filter _
  cases s with
  | l =>
    obtain ⟨k, -, rfl⟩ := mem_map.mp hx
    simpa [← hxy] using (mem_filter.mp hy).2
  | r =>
    obtain ⟨k, -, rfl⟩ := mem_map.mp hy
    simpa [hxy] using (mem_filter.mp hx).2

theorem LinkIds.send (hnum : ∀ k ∈ nums, k < num)
    (hr : r.oid = idText ports (i, num)) (harr : arrived ≤ nums.length) :
    LinkIds ports i Ω (nums ++ [num]) (H.push .l r) arrived := by
  refine ⟨?_, ?_, ?_, ?_⟩
  · rw [History.push_self, map_append, map_append, h.own]
    simp [hr]
  · rw [show H.push .l r .r = H .r from History.push_flip (s := .l)]
    exact h.others
  · rw [pairwise_append]
    exact ⟨h.sorted, by simp, fun a ha b hb => by rw [mem_singleton.mp hb]; exact hnum a ha⟩
  · rw [take_append_of_le_length harr, h.done]

theorem LinkIds.receive (hnum : nums[arrived]? = some num) :
    LinkIds ports i (Ω ++ [(i, num)]) nums H (arrived + 1) := by
  refine ⟨h.own, ?_, h.sorted, ?_⟩
  · rw [filter_append, h.others]
    simp
  rw [take_add_one, hnum, h.done, filter_append, map_append]
  simp

theorem LinkIds.feed (hj : j ≠ i) (hr : r.oid = idText ports (j, num)) :
    LinkIds ports i (Ω ++ [(j, num)]) nums (H.push .r r) arrived := by
  refine ⟨?_, ?_, h.sorted, ?_⟩
  · rw [show H.push .r r .l = H .l from History.push_flip (s := .r)]
    exact h.own
  · rw [History.push_self, map_append, h.others, filter_append, map_append]
    simp [hr, hj]
  rw [h.done, filter_append]
  simp [hj]

theorem LinkIds.order (hΩ : OrderOk ports Ω)
    (hi : i < ports.length) (hnum : nums[arrived]? = some num) :
    OrderOk ports (Ω ++ [(i, num)]) := by
  refine ⟨?_, fun x hx => ?_⟩
  · rw [pairwise_append]
    refine ⟨hΩ.sorted, by simp, fun x hx y hy hxy => ?_⟩
    rw [mem_singleton] at hy
    subst hy
    have hmem : x.2 ∈ nums.take arrived := by
      rw [h.done, mem_map]
      exact ⟨x, mem_filter.mpr ⟨hx, by simpa using hxy⟩, rfl⟩
    obtain ⟨k, hk, hkx⟩ := mem_take_iff_getElem.mp hmem
    obtain ⟨hlt, hval⟩ := List.getElem?_eq_some_iff.mp hnum
    rw [← hkx, ← hval]
    exact pairwise_iff_getElem.mp h.sorted k arrived (by omega) hlt (by omega)
  rcases mem_append.mp hx with hx | hx
  · exact hΩ.clients x hx
  rw [mem_singleton.mp hx]
  exact hi

theorem LinkIds.perm : (H.oids (mk' .l arrived (H .r).length)).Perm (Ω.map (idText ports)) := by
  have hown : ((H .l).take arrived).map OpRec.oid = (Ω.filter (·.1 = i)).map (idText ports) := by
    rw [map_take, h.own, ← map_take, h.done, map_map]
    refine map_congr_left fun x hx => ?_
    have : x.1 = i := by simpa using (mem_filter.mp hx).2
    rw [← this]
    rfl
  have heq : H.oids (mk' .l arrived (H .r).length) =
      (Ω.filter (·.1 = i) ++ Ω.filter fun x => !(decide (x.1 = i))).map (idText ports) := by
    rw [History.oids, map_append]
    refine congrArg₂ (· ++ ·) hown ?_
    rw [show (mk' .l arrived (H .r).length).r = (H .r).length from rfl, take_length, h.others]
    congr 2
    funext x
    simp
  rw [heq]
  exact (filter_append_perm _ Ω).map _

end UfsRedis

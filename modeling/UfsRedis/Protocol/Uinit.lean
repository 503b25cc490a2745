import UfsRedis.Protocol.Boot
import UfsRedis.Protocol.Everywhere

/-!
# Sequences of `uinit`

`uinitCommand` adds the new graph to `ufslist` before it looks for the key, and only a client looks.
-/

namespace UfsRedis

open List

/-- The key of the command `uinit key arg`. -/
def uinitKey (argv : List Sds) : Sds := argv.getD 1 []

/-- The argument of the command `uinit key arg`. -/
def uinitArg (argv : List Sds) : Sds := argv.getD 2 []

/-- The arguments of a `uinit` command: as many as the command table says, without NUL bytes. -/
def UinitArgs (argv : List Sds) : Prop := argv.length = 3 ∧ ∀ a ∈ argv, NulFree a

instance (argv : List Sds) : Decidable (UinitArgs argv) := inferInstanceAs (Decidable (_ ∧ _))

/-- The key of the `uinit` command of a connection. -/
def Client.uinitKey (c : Client) : Sds := UfsRedis.uinitKey c.argv

def Node.keys (n : Node) : List Sds := (n.ufslist.getD []).map CudGraph.key

/-- The clients and keys of the state spaces at the server. -/
def Node.spaceIds (n : Node) : List (Nat × Sds) := (n.sspacelist.getD []).map fun s => (s.id, s.key)

/-- At most one graph for a key, and at most one state space for a client and a key. -/
structure Node.Unique (n : Node) : Prop where
  keys : n.keys.Nodup
  spaces : n.spaceIds.Nodup

/-- A `uinit` for a key that exists is rejected, changes nothing and sends nothing. -/
def RejectsExisting (n : Node) (c : Client) : Prop :=
  c.uinitKey ∈ n.keys →
    call uinitCommand n c = .ok (n, ⟨c.argv, false, some .argvuaddexistufs⟩, [])

/-- Every state of a sequence of `uinit` commands has unique keys, and every command for a key that
exists is rejected. -/
def UinitsOk : Node → List Client → Prop
  | n, [] => n.Unique
  | n, c :: cs => n.Unique ∧ RejectsExisting n c ∧
    ∃ n' o dests, call uinitCommand n c = .ok (n', o, dests) ∧ UinitsOk n' cs

section

variable {n n' : Node} {c : Client} {cs : List Client} {o : Outcome}

/-- What a `uinit` adds. -/
structure UinitAdds (n : Node) (key : Sds) (n' : Node) : Prop where
  slaves : n'.slaves = n.slaves
  masterhost : n'.masterhost = n.masterhost
  keys : n'.keys = n.keys ++ [key]
  spaces : n'.spaceIds =
    n.spaceIds ++ if n.masterhost then [] else n.slaves.map fun s => (s.port, key)

theorem uinitCommand_argv (h : uinitCommand n c = .ok (n', o)) : o.argv = c.argv := by
  simp only [uinitCommand, bind_eq_ok] at h
  obtain ⟨key, -, S, -, g, -, h⟩ := h
  split at h
  · split at h
    · cases h
      rfl
    cases h
    rfl
  cases h
  rfl

/-- A `uinit` with three arguments returns, and adds a graph whether the key is new or not. -/
theorem uinitCommand_spec (n : Node) (hc : c.argv.length = 3) :
    ∃ n' o, uinitCommand n c = .ok (n', o) ∧ UinitAdds n c.uinitKey n' := by
  obtain ⟨name, key, S, hargv⟩ := length_eq_three.mp hc
  obtain ⟨g, hg, hkey⟩ := exists_uinitGraph key S
  have hk : c.uinitKey = key := by rw [Client.uinitKey, hargv]; rfl
  have hkeys : ((n.ufslist.getD [] ++ [g]).map CudGraph.key) = n.keys ++ [c.uinitKey] := by
    rw [map_append, map_singleton, hkey, hk]
    rfl
  by_cases hold : n.masterhost = true ∧ ∃ v ∈ n.cspacelist.getD [], v.key = key
  · refine ⟨_, _, uinitCommand_existing hargv hg hold.1 hold.2, rfl, rfl, hkeys, ?_⟩
    rw [if_pos hold.1, append_nil]
    rfl
  refine ⟨_, _, uinitCommand_eq hargv hg hkey fun hm v hv hvk => hold ⟨hm, v, hv, hvk⟩, rfl, rfl,
    hkeys, ?_⟩
  cases hm : n.masterhost with
  | true => simp [Node.spaceIds, Node.addUfs, hm]
  | false => simp [Node.spaceIds, Node.addUfs, hm, serverSpaces, hk, hkey]

theorem not_rejectsExisting (hc : c.argv.length = 3) (hk : c.uinitKey ∈ n.keys) :
    ¬ RejectsExisting n c := by
  intro h
  obtain ⟨n', o, hproc, hadds⟩ := uinitCommand_spec n hc
  obtain ⟨hproc', -⟩ := call_eq_ok.mp (h hk)
  rw [hproc, Except.ok.injEq, Prod.mk.injEq] at hproc'
  have hlen := congrArg List.length hadds.keys
  rw [hproc'.1, length_append] at hlen
  simp at hlen

theorem UinitAdds.unique_iff {key} (h : UinitAdds n key n') (hn : n.Unique)
    (hsub : ∀ x ∈ n.spaceIds, x.2 ∈ n.keys) (hnew : key ∉ n.keys) :
    n'.Unique ↔ (n.masterhost = false → (n.slaves.map Slave.port).Nodup) := by
  have hkeys : n'.keys.Nodup := by
    rw [h.keys, nodup_append]
    refine ⟨hn.keys, nodup_singleton _, fun a ha b hb hab => hnew ?_⟩
    rw [← mem_singleton.mp hb, ← hab]
    exact ha
  have hmap : (n.slaves.map fun s => (s.port, key)) = (n.slaves.map Slave.port).map (·, key) := by
    rw [map_map]
    rfl
  have hspaces : n'.spaceIds.Nodup ↔ (n.masterhost = false → (n.slaves.map Slave.port).Nodup) := by
    rw [h.spaces]
    cases n.masterhost with
    | true => simpa using hn.spaces
    | false =>
      rw [if_neg (by simp), hmap, nodup_append, nodup_map_iff fun a b hab => congrArg Prod.fst hab]
      refine ⟨fun h _ => h.2.1, fun h => ⟨hn.spaces, h rfl, fun x hx y hy hxy => hnew ?_⟩⟩
      obtain ⟨port, -, rfl⟩ := mem_map.mp hy
      have := hsub x hx
      rwa [hxy] at this
  exact ⟨fun hu => hspaces.mp hu.spaces, fun hp => ⟨hkeys, hspaces.mpr hp⟩⟩

theorem UinitAdds.sub {key} (h : UinitAdds n key n')
    (hsub : ∀ x ∈ n.spaceIds, x.2 ∈ n.keys) : ∀ x ∈ n'.spaceIds, x.2 ∈ n'.keys := by
  intro x hx
  rw [h.spaces, mem_append] at hx
  rw [h.keys, mem_append]
  rcases hx with hx | hx
  · exact .inl (hsub x hx)
  split at hx
  · exact absurd hx not_mem_nil
  obtain ⟨s, -, rfl⟩ := mem_map.mp hx
  exact .inr (mem_singleton_self key)

theorem uinitsOk_iff_of_unique (hn : n.Unique) (hsub : ∀ x ∈ n.spaceIds, x.2 ∈ n.keys)
    (hcs : ∀ c ∈ cs, c.argv.length = 3) :
    UinitsOk n cs ↔ (cs.map Client.uinitKey).Nodup ∧ (∀ c ∈ cs, c.uinitKey ∉ n.keys) ∧
      (n.masterhost = false → cs ≠ [] → (n.slaves.map Slave.port).Nodup) := by
  induction cs generalizing n with
  | nil => simp [UinitsOk, hn]
  | cons c cs ih =>
    obtain ⟨n', o, hproc, hadds⟩ := uinitCommand_spec n (hcs c (by simp))
    have hcall : call uinitCommand n c = .ok (n', o, propagate n' c o.flagUfs) :=
      call_eq_ok.mpr ⟨hproc, rfl⟩
    rw [UinitsOk, map_cons, nodup_cons]
    by_cases hnew : c.uinitKey ∈ n.keys
    · -- the command is not rejected
      constructor
      · exact fun h => absurd h.2.1 (not_rejectsExisting (hcs c (by simp)) hnew)
      · exact fun h => absurd hnew (h.2.1 c (by simp))
    have hrest : (∃ m o d, call uinitCommand n c = .ok (m, o, d) ∧ UinitsOk m cs) ↔
        UinitsOk n' cs := by
      constructor
      · rintro ⟨m, o', d, hcall', hm⟩
        rw [hcall, Except.ok.injEq, Prod.mk.injEq] at hcall'
        exact hcall'.1 ▸ hm
      · exact fun h => ⟨n', o, _, hcall, h⟩
    have hfirst : UinitsOk n' cs → n'.Unique := fun h => by
      cases cs with
      | nil => exact h
      | cons d ds => exact h.1
    have hkeys : ∀ k, k ∉ n'.keys ↔ k ∉ n.keys ∧ k ≠ c.uinitKey := fun k => by
      rw [hadds.keys, mem_append, mem_singleton, not_or]
    have huniq := hadds.unique_iff hn hsub hnew
    have hsub' := hadds.sub hsub
    have hcs' : ∀ d ∈ cs, d.argv.length = 3 := fun d hd => hcs d (by simp [hd])
    rw [hrest]
    constructor
    · rintro ⟨-, -, hok⟩
      have hu := hfirst hok
      obtain ⟨h1, h2, -⟩ := (ih hu hsub' hcs').mp hok
      refine ⟨⟨fun hmem => ?_, h1⟩, fun d hd => ?_, fun hm _ => huniq.mp hu hm⟩
      · obtain ⟨d, hd, hdk⟩ := mem_map.mp hmem
        exact ((hkeys _).mp (h2 d hd)).2 hdk
      rcases mem_cons.mp hd with rfl | hd
      · exact hnew
      · exact ((hkeys _).mp (h2 d hd)).1
    rintro ⟨⟨h1, h2⟩, h3, h4⟩
    have hports : n.masterhost = false → (n.slaves.map Slave.port).Nodup := fun hm =>
      h4 hm (cons_ne_nil _ _)
    have hu := huniq.mpr hports
    refine ⟨hn, fun hmem => absurd hmem hnew, (ih hu hsub' hcs').mpr ⟨h2, fun d hd => ?_, ?_⟩⟩
    · rw [hkeys]
      refine ⟨h3 d (by simp [hd]), fun hdk => h1 ?_⟩
      rw [← hdk]
      exact mem_map_of_mem hd
    rw [hadds.masterhost, hadds.slaves]
    exact fun hm _ => hports hm

/-- **Sequences of `uinit`**, at a node without keys: keys stay unique and commands for existing
keys are rejected without an effect iff no key comes twice and, at a server, no two clients listen
on the same port. -/
theorem uinitsOk_iff (hu : n.ufslist = none) (hs : n.sspacelist = none)
    (hcs : ∀ c ∈ cs, UinitArgs c.argv) : UinitsOk n cs ↔ (cs.map Client.uinitKey).Nodup ∧
      (n.masterhost = false → cs ≠ [] → (n.slaves.map Slave.port).Nodup) := by
  have hkeys : n.keys = [] := by rw [Node.keys, hu]; rfl
  have hspaces : n.spaceIds = [] := by rw [Node.spaceIds, hs]; rfl
  rw [uinitsOk_iff_of_unique ⟨hkeys ▸ .nil, hspaces ▸ .nil⟩ (by simp [hspaces])
    fun c hc => (hcs c hc).1]
  simp [hkeys]

end

theorem uinitsOk_iff_two_keys : UinitsOk (freshServer [6380, 6381])
    [userClient [uinitCmd, ['k'], ['a']], userClient [uinitCmd, ['l'], ['a', ',', 'b']]] :=
  (uinitsOk_iff rfl rfl (by decide)).mpr (by decide)

/-- A second `uinit` of a key. The server accepts it and sends it on, and has two graphs of the key
and two state spaces of its client; a client rejects it, and has two graphs. -/
theorem uinit_twice : (∃ n, initNode [(['k'], ['a'])] (freshServer [6380]) = .ok n ∧
      ∃ r, call uinitCommand n (userClient [uinitCmd, ['k'], ['b']]) = .ok r ∧
        r.1.keys = [['k'], ['k']] ∧ r.1.spaceIds = [(6380, ['k']), (6380, ['k'])] ∧
        r.2.1.reply = some .ok ∧ r.2.2 = [.slave 0]) ∧
    ∃ n, initNode [(['k'], ['a'])] (freshClient 6380) = .ok n ∧
      ∃ r, call uinitCommand n (userClient [uinitCmd, ['k'], ['b']]) = .ok r ∧
        r.1.keys = [['k'], ['k']] ∧ r.2.1.reply = some .argvuaddexistufs ∧ r.2.2 = [] := by
  decide +kernel

end UfsRedis

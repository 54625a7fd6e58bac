import SaeOS.Collections.OpenAddressRun

/-!
# Hash tables are finite maps

A chained table keeps every key in the list of its own bucket, once; together with the open-addressing
table this gives, for every hash function and every sequence of operations, the results of a plain finite
map, and for sets those of a plain finite set.
-/

namespace SaeOS.Collections

namespace Chain

variable {K V : Type} [DecidableEq K] {chain : Chain K V} {key : K}

/-- The keys of the chain are distinct. -/
def NodupKeys (chain : Chain K V) : Prop :=
  (chain.map Prod.fst).Nodup

omit [DecidableEq K] in
theorem nodupKeys_cons {node : K × V} :
    NodupKeys (node :: chain) ↔ node.1 ∉ chain.map Prod.fst ∧ NodupKeys chain :=
  List.nodup_cons

/-- The value of a key is that of its only node. -/
theorem get_eq_some (hnodup : NodupKeys chain) (v : V) : chain.get key = some v ↔ (key, v) ∈ chain := by
  induction chain with
  | nil => simp [get]
  | cons node next ih =>
    obtain ⟨hnot, hnext⟩ := nodupKeys_cons.mp hnodup
    obtain ⟨k, w⟩ := node
    rw [get]
    split_ifs with hk
    · dsimp only at hk hnot
      subst hk
      have hmem : (k, v) ∉ next := fun hmem => hnot (List.mem_map_of_mem hmem)
      simp [hmem, eq_comm]
    · rw [ih hnext]
      dsimp only at hk
      simp [Ne.symm hk]

theorem get_eq_none : chain.get key = none ↔ key ∉ chain.map Prod.fst := by
  induction chain with
  | nil => simp [get]
  | cons node next ih =>
    rw [get, List.map_cons, List.mem_cons, not_or]
    split_ifs with hk
    · simp [hk]
    · rw [ih]
      simp [Ne.symm hk]

/-- `modify` finds the key's node if there is one, and changes its value only. -/
theorem modify_spec (chain : Chain K V) (key : K) (update : V → V) :
    (chain.get key = none ∧ chain.modify key update = none) ∨
    ∃ v chain', chain.get key = some v ∧ chain.modify key update = some (v, chain') ∧
      chain'.map Prod.fst = chain.map Prod.fst ∧
      ∀ k, chain'.get k = if k = key then some (update v) else chain.get k := by
  induction chain with
  | nil => exact Or.inl ⟨rfl, rfl⟩
  | cons node next ih =>
    rw [get, modify]
    by_cases hk : node.1 = key
    · right
      rw [if_pos hk, if_pos hk]
      refine ⟨node.2, _, rfl, rfl, rfl, fun k => ?_⟩
      rw [get, get]
      dsimp only
      split_ifs with hsame hkey hkey
      · rfl
      · exact absurd (hsame.symm.trans hk) hkey
      · exact absurd (hk.trans hkey.symm) hsame
      · rfl
    · rw [if_neg hk, if_neg hk]
      rcases ih with ⟨hget, hmodify⟩ | ⟨v, chain', hget, hmodify, hkeys, hgets⟩
      · exact Or.inl ⟨hget, by rw [hmodify]; rfl⟩
      · refine Or.inr ⟨v, node :: chain', hget, by rw [hmodify]; rfl, ?_, fun k => ?_⟩
        · rw [List.map_cons, List.map_cons, hkeys]
        · rw [get, get, hgets]
          split_ifs with hsame hkey
          · exact absurd (hsame.trans hkey) hk
          · rfl
          · rfl
          · rfl

/-- `remove` unlinks the key's node if there is one. -/
theorem remove_spec (key : K) (hnodup : NodupKeys chain) :
    (chain.get key = none ∧ chain.remove key = none) ∨
    ∃ v chain', chain.get key = some v ∧ chain.remove key = some (v, chain') ∧
      chain'.Sublist chain ∧ chain'.length + 1 = chain.length ∧
      ∀ k, chain'.get k = if k = key then none else chain.get k := by
  induction chain with
  | nil => exact Or.inl ⟨rfl, rfl⟩
  | cons node next ih =>
    obtain ⟨hnot, hnext⟩ := nodupKeys_cons.mp hnodup
    rw [get, remove]
    by_cases hk : node.1 = key
    · right
      rw [if_pos hk, if_pos hk]
      refine ⟨node.2, next, rfl, rfl, List.sublist_cons_self _ _, rfl, fun k => ?_⟩
      rw [get]
      by_cases hkey : k = key
      · rw [if_pos hkey, hkey, ← hk]
        exact get_eq_none.mpr hnot
      · rw [if_neg hkey, if_neg fun hsame => hkey (hsame.symm.trans hk)]
    · rw [if_neg hk, if_neg hk]
      rcases ih hnext with ⟨hget, hremove⟩ | ⟨v, chain', hget, hremove, hsub, hlen, hgets⟩
      · exact Or.inl ⟨hget, by rw [hremove]; rfl⟩
      · refine Or.inr ⟨v, node :: chain', hget, by rw [hremove]; rfl, hsub.cons_cons _, ?_, fun k => ?_⟩
        · rw [List.length_cons, List.length_cons, hlen]
        · rw [get, get, hgets]
          split_ifs with hsame hkey
          · exact absurd (hsame.trans hkey) hk
          · rfl
          · rfl
          · rfl

end Chain

namespace ChainedMap

variable {K V : Type} {hash : K → ℕ} {t : ChainedMap K V} {m : K → Option V}

/-- Every key is in its own bucket, once, with the map's value. -/
structure Sound [DecidableEq K] (hash : K → ℕ) (t : ChainedMap K V) (m : K → Option V) : Prop where
  pow : ∃ p, t.buckets.length = 2 ^ p
  nodup : ∀ i, (t.buckets.getD i []).NodupKeys
  home : ∀ i, ∀ node ∈ t.buckets.getD i [], t.hashKey hash node.1 = i
  maps : ∀ k, m k = (t.chain hash k).get k
  len : t.len = t.iter.length

theorem length_flatten_set {L : List (Chain K V)} {i : ℕ} (hi : i < L.length) (chain : Chain K V) :
    (L.set i chain).flatten.length + (L.getD i []).length = L.flatten.length + chain.length := by
  induction L generalizing i with
  | nil => exact absurd hi (Nat.not_lt_zero i)
  | cons first rest ih =>
    cases i with
    | zero =>
      simp only [List.set_cons_zero, List.flatten_cons, List.length_append, List.getD_cons_zero]
      omega
    | succ i =>
      have hrest := ih (Nat.lt_of_succ_lt_succ hi)
      simp only [List.set_cons_succ, List.flatten_cons, List.length_append, List.getD_cons_succ]
      omega

theorem getD_set {L : List (Chain K V)} {i : ℕ} (hi : i < L.length) (j : ℕ) (chain : Chain K V) :
    (L.set i chain).getD j [] = if i = j then chain else L.getD j [] := by
  rw [List.getD_eq_getElem?_getD, List.getD_eq_getElem?_getD, List.getElem?_set]
  split_ifs with hij
  · rfl
  · rfl

variable [DecidableEq K]

theorem Sound.hashKey_lt (h : Sound hash t m) (k : K) : t.hashKey hash k < t.buckets.length := by
  obtain ⟨p, hp⟩ := h.pow
  rw [hashKey, OpenAddressMap.and_mask hp]
  refine Nat.mod_lt _ ?_
  rw [hp]
  exact Nat.two_pow_pos p

/-- A key's bucket changes for that key only. -/
theorem Sound.set (h : Sound hash t m) {key : K} {chain : Chain K V} {x : Option V} {len : ℕ}
    (hnodup : chain.NodupKeys) (hkeys : ∀ node ∈ chain, node.1 = key ∨ node.1 ∈ (t.chain hash key).map Prod.fst)
    (hgets : ∀ k, chain.get k = if k = key then x else (t.chain hash key).get k)
    (hlen : len + (t.chain hash key).length = t.len + chain.length) :
    Sound hash { buckets := t.buckets.set (t.hashKey hash key) chain, len := len }
      (Function.update m key x) := by
  have hlt := h.hashKey_lt key
  have hhash (k : K) : hashKey hash (⟨t.buckets.set (t.hashKey hash key) chain, len⟩ : ChainedMap K V) k =
      t.hashKey hash k := by
    rw [hashKey, hashKey, List.length_set]
    rfl
  refine ⟨?_, fun i => ?_, fun i node hnode => ?_, fun k => ?_, ?_⟩
  · rw [List.length_set]
    exact h.pow
  · rw [getD_set hlt]
    split_ifs
    · exact hnodup
    · exact h.nodup i
  · rw [hhash]
    rw [getD_set hlt] at hnode
    split_ifs at hnode with hi
    · rw [← hi]
      rcases hkeys node hnode with hkey | hkey
      · rw [hkey]
      · obtain ⟨node', hnode', hsame⟩ := List.mem_map.mp hkey
        rw [← hsame]
        exact h.home _ node' hnode'
    · exact h.home i node hnode
  · rw [ChainedMap.chain, hhash, getD_set hlt]
    split_ifs with hi
    · rw [hgets]
      split_ifs with hk
      · rw [hk, Function.update_self]
      · rw [Function.update_of_ne hk, h.maps, ChainedMap.chain, ChainedMap.chain, hi]
    · have hk : k ≠ key := fun hk => hi (by rw [hk])
      rw [Function.update_of_ne hk, h.maps, ChainedMap.chain]
  · have hflat := length_flatten_set hlt chain
    have hold := h.len
    unfold iter at hold ⊢
    unfold ChainedMap.chain at hlen
    dsimp only
    omega

theorem Sound.get (h : Sound hash t m) (k : K) : t.get hash k = m k :=
  (h.maps k).symm

theorem Sound.insert (h : Sound hash t m) (k : K) (v : V) :
    ∃ t', t.insert hash k v = (m k, t') ∧ Sound hash t' (Function.update m k (some v)) := by
  have hnodup : (t.chain hash k).NodupKeys := h.nodup _
  unfold ChainedMap.insert
  rw [h.maps]
  rcases Chain.modify_spec (t.chain hash k) k (fun _ => v) with
    ⟨hget, hmodify⟩ | ⟨w, chain, hget, hmodify, hkeys, hgets⟩
  · refine ⟨_, by rw [hmodify, hget], h.set ?_ ?_ ?_ ?_⟩
    · exact Chain.nodupKeys_cons.mpr ⟨Chain.get_eq_none.mp hget, hnodup⟩
    · intro node hnode
      rcases List.mem_cons.mp hnode with rfl | hnode
      · exact Or.inl rfl
      · exact Or.inr (List.mem_map_of_mem hnode)
    · intro k'
      rw [Chain.get]
      dsimp only
      by_cases hk : k' = k
      · rw [if_pos hk, if_pos hk.symm]
      · rw [if_neg hk, if_neg (Ne.symm hk)]
    · rw [List.length_cons]
      omega
  · refine ⟨_, by rw [hmodify, hget], h.set ?_ ?_ hgets ?_⟩
    · rw [Chain.NodupKeys, hkeys]
      exact hnodup
    · exact fun node hnode => Or.inr (hkeys ▸ List.mem_map_of_mem hnode)
    · have hlength := congrArg List.length hkeys
      rw [List.length_map, List.length_map] at hlength
      omega

theorem Sound.getMut (h : Sound hash t m) (k : K) (update : V → V) :
    ∃ t', t.getMut hash k update = (m k, t') ∧
      Sound hash t' (Function.update m k ((m k).map update)) := by
  have hnodup : (t.chain hash k).NodupKeys := h.nodup _
  unfold ChainedMap.getMut
  rcases Chain.modify_spec (t.chain hash k) k update with
    ⟨hget, hmodify⟩ | ⟨w, chain, hget, hmodify, hkeys, hgets⟩
  · have hm : m k = none := (h.maps k).trans hget
    refine ⟨t, by rw [hmodify, hm], ?_⟩
    rw [hm, Option.map_none, ← hm, Function.update_eq_self]
    exact h
  · have hm : m k = some w := (h.maps k).trans hget
    refine ⟨_, by rw [hmodify, hm], ?_⟩
    rw [hm, Option.map_some]
    refine h.set ?_ ?_ hgets ?_
    · rw [Chain.NodupKeys, hkeys]
      exact hnodup
    · exact fun node hnode => Or.inr (hkeys ▸ List.mem_map_of_mem hnode)
    · have hlength := congrArg List.length hkeys
      rw [List.length_map, List.length_map] at hlength
      omega

theorem Sound.remove (h : Sound hash t m) (k : K) :
    ∃ t', t.remove hash k = (m k, t') ∧ Sound hash t' (Function.update m k none) := by
  have hnodup : (t.chain hash k).NodupKeys := h.nodup _
  unfold ChainedMap.remove
  rcases Chain.remove_spec k hnodup with
    ⟨hget, hremove⟩ | ⟨w, chain, hget, hremove, hsub, hlength, hgets⟩
  · have hm : m k = none := (h.maps k).trans hget
    refine ⟨t, by rw [hremove, hm], ?_⟩
    rw [← hm, Function.update_eq_self]
    exact h
  · have hm : m k = some w := (h.maps k).trans hget
    refine ⟨_, by rw [hremove, hm], h.set ?_ ?_ hgets ?_⟩
    · exact hnodup.sublist (hsub.map _)
    · exact fun node hnode => Or.inr (List.mem_map_of_mem (hsub.subset hnode))
    · -- the table is not empty
      have hlt := h.hashKey_lt k
      have hflat := length_flatten_set hlt ([] : Chain K V)
      have hlen := h.len
      unfold iter at hlen
      unfold ChainedMap.chain at hlength ⊢
      rw [List.length_nil] at hflat
      omega

theorem Sound.enumerates (h : Sound hash t m) : FiniteMap.Enumerates m t.iter := by
  have hat (i : ℕ) (hi : i < t.buckets.length) : t.buckets[i] = t.buckets.getD i [] := by
    rw [List.getD_eq_getElem?_getD, List.getElem?_eq_getElem hi, Option.getD_some]
  refine ⟨?_, fun k v => ?_⟩
  · rw [iter, List.map_flatten, List.nodup_flatten]
    refine ⟨fun keys hkeys => ?_, ?_⟩
    · obtain ⟨chain, hchain, rfl⟩ := List.mem_map.mp hkeys
      obtain ⟨i, hi, rfl⟩ := List.getElem_of_mem hchain
      rw [hat i hi]
      exact h.nodup i
    · rw [List.pairwise_map, List.pairwise_iff_getElem]
      intro i j hi hj hlt k hki hkj
      -- a key in two buckets would belong to both
      obtain ⟨node, hnode, rfl⟩ := List.mem_map.mp hki
      obtain ⟨node', hnode', hsame⟩ := List.mem_map.mp hkj
      rw [hat i hi] at hnode
      rw [hat j hj] at hnode'
      have hhome := h.home i node hnode
      have hhome' := h.home j node' hnode'
      rw [hsame] at hhome'
      omega
  · rw [iter, List.mem_flatten, h.maps, Chain.get_eq_some (show (t.chain hash k).NodupKeys from h.nodup _)]
    constructor
    · rintro ⟨chain, hchain, hmem⟩
      obtain ⟨i, hi, rfl⟩ := List.getElem_of_mem hchain
      rw [hat i hi] at hmem
      have hhome := h.home i (k, v) hmem
      rw [ChainedMap.chain, hhome]
      exact hmem
    · intro hmem
      have hlt := h.hashKey_lt k
      refine ⟨t.buckets[t.hashKey hash k], List.getElem_mem hlt, ?_⟩
      rw [hat _ hlt]
      exact hmem

/-- A table of empty buckets. -/
theorem sound_replicate (hash : K → ℕ) {n p : ℕ} (hp : n = 2 ^ p) :
    Sound hash (⟨List.replicate n [], 0⟩ : ChainedMap K V) fun _ => none := by
  have hat (i : ℕ) : (List.replicate n ([] : Chain K V)).getD i [] = [] := by
    rw [List.getD_eq_getElem?_getD, List.getElem?_replicate]
    split_ifs <;> rfl
  refine ⟨⟨p, by rw [List.length_replicate, hp]⟩, fun i => ?_, fun i node hnode => ?_, fun k => ?_, ?_⟩
  · rw [hat]
    exact List.nodup_nil
  · rw [hat] at hnode
    cases hnode
  · rw [ChainedMap.chain, hat]
    rfl
  · rw [iter, List.flatten_replicate_nil]
    rfl

theorem Sound.clear (h : Sound hash t m) : Sound hash t.clear fun _ => none := by
  obtain ⟨p, hp⟩ := h.pow
  unfold ChainedMap.clear
  rw [List.map_const']
  exact sound_replicate hash hp

/-- Every operation has the result of the map. -/
theorem Sound.step (h : Sound hash t m) (op : FiniteMap.Op K V) :
    ∃ result t', t.step hash op = some (result, t') ∧ FiniteMap.Accepts m op result ∧
      Sound hash t' (FiniteMap.next m op) := by
  cases op with
  | insert k v =>
    obtain ⟨t', heq, hsound⟩ := h.insert k v
    exact ⟨.value (m k), t', by rw [ChainedMap.step, heq], rfl, hsound⟩
  | get k => exact ⟨.value (m k), t, by rw [ChainedMap.step, h.get], rfl, h⟩
  | getMut k update =>
    obtain ⟨t', heq, hsound⟩ := h.getMut k update
    exact ⟨.value (m k), t', by rw [ChainedMap.step, heq], rfl, hsound⟩
  | remove k =>
    obtain ⟨t', heq, hsound⟩ := h.remove k
    exact ⟨.value (m k), t', by rw [ChainedMap.step, heq], rfl, hsound⟩
  | containsKey k => exact ⟨.flag (m k).isSome, t, by rw [ChainedMap.step, h.get], rfl, h⟩
  | iter => exact ⟨_, t, rfl, h.enumerates, h⟩
  | len => exact ⟨_, t, rfl, ⟨t.iter, h.enumerates, h.len.symm⟩, h⟩
  | clear => exact ⟨.unit, t.clear, rfl, trivial, h.clear⟩

end ChainedMap

/-! ## Sets -/

/-- Every operation of a set has the result of the set of its map's keys. -/
theorem HashSet.step_spec {T : Type} [DecidableEq T] {hash : T → ℕ} {t : HashSet T} {m : T → Option Unit}
    (h : OpenAddressMap.Sound hash t m) (op : FiniteSet.Op T) :
    ∃ result t', HashSet.step hash t op = some (result, t') ∧
      FiniteSet.Accepts {x | (m x).isSome} op result ∧
      ∃ m', OpenAddressMap.Sound hash t' m' ∧
        FiniteSet.next {x | (m x).isSome} op = {x | (m' x).isSome} := by
  have hvalues : (t.iter.map Prod.fst).Nodup ∧
      ∀ x, x ∈ t.iter.map Prod.fst ↔ x ∈ {x | (m x).isSome} := by
    obtain ⟨hnodup, hmem⟩ := h.enumerates
    refine ⟨hnodup, fun x => ?_⟩
    rw [List.mem_map, Set.mem_ofPred_eq, Option.isSome_iff_exists]
    constructor
    · rintro ⟨⟨k, v⟩, hkv, rfl⟩
      exact ⟨v, (hmem k v).mp hkv⟩
    · rintro ⟨v, hv⟩
      exact ⟨(x, v), (hmem x v).mpr hv, rfl⟩
  cases op with
  | insert x =>
    obtain ⟨t', heq, hsound⟩ := h.insert x ()
    refine ⟨.flag (m x).isNone, t', by rw [HashSet.step, heq]; rfl, ?_, _, hsound, ?_⟩
    · change (m x).isNone = true ↔ ¬ (m x).isSome = true
      cases m x <;> simp
    · ext y
      change y = x ∨ (m y).isSome ↔ _
      rcases eq_or_ne y x with rfl | hne
      · simp
      · simp [hne]
  | contains x =>
    refine ⟨.flag (m x).isSome, t, by rw [HashSet.step, h.get]; rfl, ?_, m, h, rfl⟩
    exact Iff.rfl
  | remove x =>
    obtain ⟨t', heq, hsound⟩ := h.remove x
    refine ⟨.flag (m x).isSome, t', by rw [HashSet.step, heq]; rfl, Iff.rfl, _, hsound, ?_⟩
    ext y
    change (m y).isSome ∧ y ≠ x ↔ _
    rcases eq_or_ne y x with rfl | hne
    · simp
    · simp [hne]
  | iter => exact ⟨_, t, rfl, hvalues, m, h, rfl⟩
  | len =>
    refine ⟨_, t, rfl, ⟨_, hvalues.1, hvalues.2, ?_⟩, m, h, rfl⟩
    rw [List.length_map]
    exact h.length_iter
  | clear =>
    refine ⟨.unit, t.clear, rfl, trivial, _, h.clear, ?_⟩
    ext y
    exact ⟨fun hy => absurd hy (Set.notMem_empty y), fun hy => absurd hy (by simp)⟩

/-- **Hash tables are finite maps.** For every hash function, every initial capacity and every sequence
of operations, the open-addressing table and the chained table come back from every operation with the
results of a plain finite map, and the set with those of a plain finite set. In every table the first one
comes to there is an empty bucket, no key is stored twice, and every stored key is found. -/
theorem tables_agree {K V T : Type} [DecidableEq K] [DecidableEq T] (hash : K → ℕ) (hashT : T → ℕ)
    (capacity : ℕ) (ops : List (FiniteMap.Op K V)) (setOps : List (FiniteSet.Op T)) :
    (∃ results t, Interface.run (OpenAddressMap.step hash) (OpenAddressMap.withCapacity capacity) ops =
        some (results, t) ∧ FiniteMap.Agrees (fun _ => none) ops results ∧
      (∃ i < t.buckets.length, OpenAddressMap.bucketAt t.buckets i = .empty) ∧
      (∀ i j k v w, OpenAddressMap.bucketAt t.buckets i = .occupied k v →
        OpenAddressMap.bucketAt t.buckets j = .occupied k w → i = j) ∧
      ∀ i k v, OpenAddressMap.bucketAt t.buckets i = .occupied k v → t.get hash k = some (some v)) ∧
    (∃ results t, Interface.run (ChainedMap.step hash) (ChainedMap.withBuckets capacity) ops =
      some (results, t) ∧ FiniteMap.Agrees (fun _ => none) ops results) ∧
    ∃ results t, Interface.run (HashSet.step hashT) (OpenAddressMap.withCapacity capacity) setOps =
      some (results, t) ∧ FiniteSet.Agrees ∅ setOps results := by
  refine ⟨?_, ?_, ?_⟩
  · have hstart : OpenAddressMap.Sound hash
        (OpenAddressMap.withCapacity capacity : OpenAddressMap K V) fun _ => none :=
      OpenAddressMap.sound_replicate hash rfl
    obtain ⟨results, t, hrun, hagrees, m, hsound⟩ := Interface.run_related
      FiniteMap.Agrees (fun _ => trivial) (fun _ _ _ _ _ h h' => ⟨h, h'⟩)
      (fun t m op h => h.step op) hstart ops
    refine ⟨results, t, hrun, hagrees, hsound.hasEmpty, hsound.holds.unique, fun i k v hi => ?_⟩
    rw [hsound.get, (hsound.holds.stores k v).mpr ⟨i, hi⟩]
  · have hstart : ChainedMap.Sound hash
        (ChainedMap.withBuckets capacity : ChainedMap K V) fun _ => none :=
      ChainedMap.sound_replicate hash rfl
    obtain ⟨results, t, hrun, hagrees, -⟩ := Interface.run_related
      FiniteMap.Agrees (fun _ => trivial) (fun _ _ _ _ _ h h' => ⟨h, h'⟩)
      (fun t m op h => h.step op) hstart ops
    exact ⟨results, t, hrun, hagrees⟩
  · have hstart : ∃ m, OpenAddressMap.Sound hashT
        (OpenAddressMap.withCapacity capacity : HashSet T) m ∧ (∅ : Set T) = {x | (m x).isSome} := by
      refine ⟨fun _ => none, OpenAddressMap.sound_replicate hashT rfl, ?_⟩
      ext y
      exact ⟨fun hy => absurd hy (Set.notMem_empty y), fun hy => absurd hy (by simp)⟩
    obtain ⟨results, t, hrun, hagrees, -⟩ := Interface.run_related
      (R := fun t (s : Set T) => ∃ m, OpenAddressMap.Sound hashT t m ∧ s = {x | (m x).isSome})
      FiniteSet.Agrees (fun _ => trivial) (fun _ _ _ _ _ h h' => ⟨h, h'⟩)
      (fun t s op ⟨m, h, hs⟩ => by
        subst hs
        exact HashSet.step_spec h op) hstart setOps
    exact ⟨results, t, hrun, hagrees⟩

end SaeOS.Collections

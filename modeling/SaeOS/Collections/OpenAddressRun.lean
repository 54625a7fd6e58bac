import SaeOS.Collections.HashMaps

/-!
# Open addressing is a finite map

Every bucket on the way from a key's own bucket to where the key is stored is not empty; buckets become
empty only when the table is cleared or rebuilt. So a search that stops at an empty bucket has not missed
the key, and one that finds a tombstone on the way may put the key there. The count of buckets in use
stays below their number, so every search stops.

The module introduces:

* `slot n start d` — the bucket a search comes to after `d` rounds.
* `Holds hash buckets m` — the buckets store the map `m`, every key where its search finds it.
* `Sound hash t m` — a table that holds `m`, with its counts.
-/

namespace SaeOS.Collections

namespace OpenAddressMap

variable {K V : Type} {hash : K → ℕ} {buckets : List (Bucket K V)} {m : K → Option V}

/-! ## Searches -/

/-- The bucket after `d` rounds from `start`. -/
def slot (n start d : ℕ) : ℕ :=
  (start + d) % n

/-- The number of buckets is a power of two, so that masking is the remainder. -/
theorem and_mask {n p : ℕ} (hn : n = 2 ^ p) (x : ℕ) : x &&& (n - 1) = x % n := by
  rw [hn, Nat.and_two_pow_sub_one_eq_mod]

theorem slot_succ {n p : ℕ} (hn : n = 2 ^ p) (start d : ℕ) :
    (slot n start d + 1) &&& (n - 1) = slot n start (d + 1) := by
  rw [and_mask hn, slot, slot, Nat.mod_add_mod, Nat.add_assoc]

theorem slot_zero {n p : ℕ} (hn : n = 2 ^ p) (start : ℕ) : start &&& (n - 1) = slot n start 0 := by
  rw [and_mask hn, slot, Nat.add_zero]

/-- A search comes to every bucket. -/
theorem exists_slot {n i : ℕ} (hi : i < n) (start : ℕ) : ∃ d < n, slot n start d = i := by
  have hn : 0 < n := Nat.zero_lt_of_lt hi
  have hstart := Nat.mod_lt start hn
  refine ⟨(i + n - start % n) % n, Nat.mod_lt _ hn, ?_⟩
  rw [slot, Nat.add_mod_mod, ← Nat.mod_add_mod, show start % n + (i + n - start % n) = i + n by omega,
    Nat.add_mod_right, Nat.mod_eq_of_lt hi]

theorem slot_lt {n : ℕ} (hn : 0 < n) (start d : ℕ) : slot n start d < n :=
  Nat.mod_lt _ hn

theorem bucketAt_set (i j : ℕ) (hi : i < buckets.length) (bucket : Bucket K V) :
    bucketAt (buckets.set i bucket) j = if i = j then bucket else bucketAt buckets j := by
  unfold bucketAt
  rw [List.getD_eq_getElem?_getD, List.getD_eq_getElem?_getD, List.getElem?_set]
  split_ifs with hij
  · rfl
  · rfl

theorem bucketAt_eq_getElem {i : ℕ} (hi : i < buckets.length) : bucketAt buckets i = buckets[i] := by
  rw [bucketAt, List.getD_eq_getElem?_getD, List.getElem?_eq_getElem hi, Option.getD_some]

/-! ## What the buckets store -/

/-- Every key of the map is stored once, and no bucket on the way to it is empty. -/
structure Holds (hash : K → ℕ) (buckets : List (Bucket K V)) (m : K → Option V) : Prop where
  pow : ∃ p, buckets.length = 2 ^ p
  unique : ∀ i j k v w, bucketAt buckets i = .occupied k v → bucketAt buckets j = .occupied k w → i = j
  stores : ∀ k v, m k = some v ↔ ∃ i, bucketAt buckets i = .occupied k v
  path : ∀ i k v, bucketAt buckets i = .occupied k v → ∃ d, slot buckets.length (hash k) d = i ∧
    ∀ d' < d, bucketAt buckets (slot buckets.length (hash k) d') ≠ .empty

theorem Holds.length_pos (h : Holds hash buckets m) : 0 < buckets.length := by
  obtain ⟨p, hp⟩ := h.pow
  rw [hp]
  exact Nat.two_pow_pos p

/-- Only buckets of the table are in use. -/
theorem lt_of_bucketAt {i : ℕ} (h : bucketAt buckets i ≠ .empty) : i < buckets.length := by
  by_contra hge
  refine h ?_
  unfold bucketAt
  rw [List.getD_eq_getElem?_getD, List.getElem?_eq_none (Nat.le_of_not_lt hge)]
  rfl

theorem Holds.eq_none (h : Holds hash buckets m) {k : K} (hnone : m k = none) (i : ℕ) (v : V) :
    bucketAt buckets i ≠ .occupied k v := by
  intro hi
  have hsome := (h.stores k v).mpr ⟨i, hi⟩
  rw [hnone] at hsome
  cases hsome

/-- What a bucket of a key's path holds for it. -/
def stored (k : K) : Option V → Bucket K V
  | some v => .occupied k v
  | none => .tombstone

theorem stored_ne_empty (k : K) (x : Option V) : stored k x ≠ .empty := by
  cases x <;> exact fun h => (by cases h)

theorem stored_eq_occupied {k k' : K} {x : Option V} {v : V} (h : stored k x = .occupied k' v) :
    k = k' ∧ x = some v := by
  cases x with
  | none => cases h
  | some w =>
    cases h
    exact ⟨rfl, rfl⟩

/-- A key's value changes in a bucket that its search comes to before any empty one. -/
theorem Holds.put [DecidableEq K] (h : Holds hash buckets m) {k : K} {d : ℕ} (x : Option V)
    (hpath : ∀ d' < d, bucketAt buckets (slot buckets.length (hash k) d') ≠ .empty)
    (hold : ∀ k' w, bucketAt buckets (slot buckets.length (hash k) d) = .occupied k' w → k' = k)
    (hhere : ∀ j w, bucketAt buckets j = .occupied k w → slot buckets.length (hash k) d = j) :
    Holds hash (buckets.set (slot buckets.length (hash k) d) (stored k x)) (Function.update m k x) := by
  have hlt := slot_lt h.length_pos (hash k) d
  generalize hi : slot buckets.length (hash k) d = i at hold hhere hlt ⊢
  have hat (j : ℕ) : bucketAt (buckets.set i (stored k x)) j =
      if i = j then stored k x else bucketAt buckets j := bucketAt_set i j hlt _
  refine ⟨?_, fun j j' k' v w hj hj' => ?_, fun k' v => ?_, fun j k' v hj => ?_⟩
  · rw [List.length_set]
    exact h.pow
  · rw [hat] at hj hj'
    split_ifs at hj hj' with hij hij' hij'
    · exact hij.symm.trans hij'
    · -- the key is nowhere else
      obtain ⟨rfl, -⟩ := stored_eq_occupied hj
      exact absurd (hhere j' w hj') hij'
    · obtain ⟨rfl, -⟩ := stored_eq_occupied hj'
      exact absurd (hhere j v hj) hij
    · exact h.unique j j' k' v w hj hj'
  · rcases eq_or_ne k' k with rfl | hne
    · rw [Function.update_self]
      constructor
      · rintro rfl
        exact ⟨i, by rw [hat, if_pos rfl]; rfl⟩
      · rintro ⟨j, hj⟩
        rw [hat] at hj
        split_ifs at hj with hij
        · exact (stored_eq_occupied hj).2
        · exact absurd (hhere j v hj) hij
    · rw [Function.update_of_ne hne, h.stores]
      refine exists_congr fun j => ?_
      rw [hat]
      split_ifs with hij
      · subst hij
        constructor
        · exact fun hj => absurd (hold k' v hj) hne
        · exact fun hj => absurd (stored_eq_occupied hj).1.symm hne
      · exact Iff.rfl
  · rw [hat] at hj
    rw [List.length_set]
    -- buckets that were in use still are
    have hkeep : ∀ j', bucketAt buckets j' ≠ .empty →
        bucketAt (buckets.set i (stored k x)) j' ≠ .empty := by
      intro j' hj'
      rw [hat]
      split_ifs
      · exact stored_ne_empty k x
      · exact hj'
    split_ifs at hj with hij
    · obtain ⟨rfl, -⟩ := stored_eq_occupied hj
      exact ⟨d, hi.trans hij, fun d' hd' => hkeep _ (hpath d' hd')⟩
    · obtain ⟨d₁, hd₁, hpath₁⟩ := h.path j k' v hj
      exact ⟨d₁, hd₁, fun d' hd' => hkeep _ (hpath₁ d' hd')⟩

/-! ## Loops -/

/-- Some bucket is empty. -/
def HasEmpty (buckets : List (Bucket K V)) : Prop :=
  ∃ i < buckets.length, bucketAt buckets i = .empty

/-- A search that has not met an empty bucket has not come to every bucket. -/
theorem HasEmpty.lt (hempty : HasEmpty buckets) {start d : ℕ}
    (hpath : ∀ d' < d, bucketAt buckets (slot buckets.length start d') ≠ .empty) :
    d < buckets.length := by
  obtain ⟨i, hi, hempty⟩ := hempty
  obtain ⟨d₀, hd₀, rfl⟩ := exists_slot hi start
  by_contra hge
  exact hpath d₀ (lt_of_lt_of_le hd₀ (Nat.le_of_not_lt hge)) hempty

/-- An empty bucket on the path of a key that was not met before means that the key is not stored. -/
theorem Holds.absent (h : Holds hash buckets m) {k : K} {d : ℕ}
    (hmissed : ∀ d' < d, ∀ v, bucketAt buckets (slot buckets.length (hash k) d') ≠ .occupied k v)
    (hempty : bucketAt buckets (slot buckets.length (hash k) d) = .empty) : m k = none := by
  cases hm : m k with
  | none => rfl
  | some v =>
    obtain ⟨i, hi⟩ := (h.stores k v).mp hm
    obtain ⟨d₀, rfl, hpath⟩ := h.path i k v hi
    rcases lt_trichotomy d₀ d with hlt | rfl | hgt
    · exact absurd hi (hmissed d₀ hlt v)
    · rw [hi] at hempty
      cases hempty
    · exact absurd hempty (hpath d hgt)

/-- What a search has behind it: no empty bucket and not the key. -/
structure Behind (hash : K → ℕ) (buckets : List (Bucket K V)) (k : K) (d : ℕ) : Prop where
  used : ∀ d' < d, bucketAt buckets (slot buckets.length (hash k) d') ≠ .empty
  missed : ∀ d' < d, ∀ v, bucketAt buckets (slot buckets.length (hash k) d') ≠ .occupied k v

theorem Behind.zero {k : K} : Behind hash buckets k 0 :=
  ⟨(fun d' hd' => absurd hd' (Nat.not_lt_zero d')), fun d' hd' => absurd hd' (Nat.not_lt_zero d')⟩

theorem Behind.succ {k : K} {d : ℕ} (h : Behind hash buckets k d)
    (hused : bucketAt buckets (slot buckets.length (hash k) d) ≠ .empty)
    (hmissed : ∀ v, bucketAt buckets (slot buckets.length (hash k) d) ≠ .occupied k v) :
    Behind hash buckets k (d + 1) := by
  refine ⟨fun d' hd' => ?_, fun d' hd' => ?_⟩
  · rcases Nat.lt_succ_iff_lt_or_eq.mp hd' with hlt | rfl
    · exact h.used d' hlt
    · exact hused
  · rcases Nat.lt_succ_iff_lt_or_eq.mp hd' with hlt | rfl
    · exact h.missed d' hlt
    · exact hmissed

/-- The search finds where a key of the map is stored, or an empty bucket if the map has not the key. -/
theorem Holds.find_spec [DecidableEq K] (h : Holds hash buckets m) (hempty : HasEmpty buckets) {k : K}
    (rounds : ℕ) {d : ℕ} (hrounds : d + rounds = buckets.length) (hbehind : Behind hash buckets k d) :
    (m k = none ∧ find buckets k rounds (slot buckets.length (hash k) d) = some none) ∨
    ∃ d' v, m k = some v ∧ Behind hash buckets k d' ∧
      bucketAt buckets (slot buckets.length (hash k) d') = .occupied k v ∧
      find buckets k rounds (slot buckets.length (hash k) d) =
        some (some (slot buckets.length (hash k) d', v)) := by
  obtain ⟨p, hp⟩ := h.pow
  induction rounds generalizing d with
  | zero =>
    have hlt := hempty.lt hbehind.used
    omega
  | succ rounds ih =>
    rw [find]
    have hnext := slot_succ hp (hash k) d
    cases hbucket : bucketAt buckets (slot buckets.length (hash k) d) with
    | empty => exact Or.inl ⟨h.absent hbehind.missed hbucket, rfl⟩
    | tombstone =>
      dsimp only
      rw [hnext]
      exact ih (by omega) (hbehind.succ (by rw [hbucket]; exact fun h => absurd h (by simp))
        (by rw [hbucket]; exact fun v h => absurd h (by simp)))
    | occupied k' v =>
      dsimp only
      by_cases hk : k' = k
      · subst hk
        rw [if_pos rfl]
        exact Or.inr ⟨d, v, (h.stores k' v).mpr ⟨_, hbucket⟩, hbehind, hbucket, rfl⟩
      · rw [if_neg hk, hnext]
        refine ih (by omega) (hbehind.succ (by rw [hbucket]; exact fun h => absurd h (by simp)) ?_)
        rw [hbucket]
        intro w heq
        cases heq
        exact hk rfl

/-! ## Counts -/

/-- The bucket is not empty. -/
def used : Bucket K V → Bool
  | .empty => false
  | _ => true

/-- The bucket holds a key. -/
def live (bucket : Bucket K V) : Bool :=
  bucket.entry.isSome

theorem countP_set (p : Bucket K V → Bool) {i : ℕ} (hi : i < buckets.length) (bucket : Bucket K V) :
    (buckets.set i bucket).countP p + (if p (bucketAt buckets i) then 1 else 0) =
      buckets.countP p + (if p bucket then 1 else 0) := by
  have hat : bucketAt buckets i = buckets[i] := bucketAt_eq_getElem hi
  have hle := List.boole_getElem_le_countP (p := p) hi
  rw [List.countP_set hi, hat]
  omega

theorem countP_live_le_used : buckets.countP live ≤ buckets.countP used := by
  refine List.countP_mono_left fun bucket _ hlive => ?_
  cases bucket with
  | empty => cases hlive
  | occupied k v => rfl
  | tombstone => rfl

/-- With fewer buckets in use than there are, one is empty. -/
theorem hasEmpty_of_lt (h : buckets.countP used < buckets.length) : HasEmpty buckets := by
  by_contra hnone
  refine absurd (List.countP_eq_length.mpr fun bucket hbucket => ?_) (Nat.ne_of_lt h)
  obtain ⟨i, hi, rfl⟩ := List.getElem_of_mem hbucket
  have hat : bucketAt buckets i = buckets[i] := bucketAt_eq_getElem hi
  cases hused : buckets[i] with
  | empty => exact absurd ⟨i, hi, hat.trans hused⟩ hnone
  | occupied k v => rfl
  | tombstone => rfl

/-- A table that holds a map, with its counts. -/
structure Sound (hash : K → ℕ) (t : OpenAddressMap K V) (m : K → Option V) : Prop where
  holds : Holds hash t.buckets m
  count : t.occupiedCount = t.buckets.countP used
  len : t.len = t.buckets.countP live
  room : t.occupiedCount < t.buckets.length

variable {t : OpenAddressMap K V}

theorem Sound.hasEmpty (h : Sound hash t m) : HasEmpty t.buckets :=
  hasEmpty_of_lt (h.count ▸ h.room)

/-! ## Rebuilding -/

/-- The keys of the buckets are distinct. -/
theorem Holds.nodup (h : Holds hash buckets m) :
    ((buckets.filterMap Bucket.entry).map Prod.fst).Nodup := by
  rw [List.Nodup, List.pairwise_map]
  have hapart : buckets.Pairwise fun a b => ∀ k v w, a = .occupied k v → b ≠ .occupied k w := by
    rw [List.pairwise_iff_getElem]
    intro i j hi hj hlt k v w hai hbj
    have hati : bucketAt buckets i = buckets[i] := bucketAt_eq_getElem hi
    have hatj : bucketAt buckets j = buckets[j] := bucketAt_eq_getElem hj
    exact absurd (h.unique i j k v w (hati.trans hai) (hatj.trans hbj)) (Nat.ne_of_lt hlt)
  refine hapart.filterMap _ fun a b hab x hx y hy => ?_
  intro hkey
  obtain ⟨k, v⟩ := x
  obtain ⟨k', w⟩ := y
  cases a with
  | empty => cases hx
  | tombstone => cases hx
  | occupied ka va =>
    cases b with
    | empty => cases hy
    | tombstone => cases hy
    | occupied kb vb =>
      cases hx
      cases hy
      have hsame : k = k' := hkey
      exact hab k v w rfl (by rw [hsame])

theorem Holds.mem_iff (h : Holds hash buckets m) (k : K) (v : V) :
    Bucket.occupied k v ∈ buckets ↔ m k = some v := by
  rw [h.stores]
  constructor
  · intro hmem
    obtain ⟨i, hi, heq⟩ := List.getElem_of_mem hmem
    exact ⟨i, (bucketAt_eq_getElem hi).trans heq⟩
  · rintro ⟨i, hi⟩
    have hlt : i < buckets.length := lt_of_bucketAt (by rw [hi]; exact fun h => absurd h (by simp))
    rw [← hi, bucketAt_eq_getElem hlt]
    exact List.getElem_mem hlt

/-- The loop of `resize` comes to a bucket that is not occupied. -/
theorem freeBucket_spec {p : ℕ} (hp : buckets.length = 2 ^ p) (hempty : HasEmpty buckets) {start : ℕ}
    (rounds : ℕ) {d : ℕ} (hrounds : d + rounds = buckets.length)
    (hused : ∀ d' < d, bucketAt buckets (slot buckets.length start d') ≠ .empty) :
    ∃ d', freeBucket buckets rounds (slot buckets.length start d) =
        some (slot buckets.length start d') ∧
      (∀ d'' < d', bucketAt buckets (slot buckets.length start d'') ≠ .empty) ∧
      ∀ k v, bucketAt buckets (slot buckets.length start d') ≠ .occupied k v := by
  induction rounds generalizing d with
  | zero =>
    have hlt := hempty.lt hused
    omega
  | succ rounds ih =>
    rw [freeBucket]
    cases hbucket : bucketAt buckets (slot buckets.length start d) with
    | empty => exact ⟨d, rfl, hused, fun k v => by rw [hbucket]; exact fun h => absurd h (by simp)⟩
    | tombstone => exact ⟨d, rfl, hused, fun k v => by rw [hbucket]; exact fun h => absurd h (by simp)⟩
    | occupied k v =>
      dsimp only
      rw [slot_succ hp]
      refine ih (by omega) fun d' hd' => ?_
      rcases Nat.lt_succ_iff_lt_or_eq.mp hd' with hlt | rfl
      · exact hused d' hlt
      · rw [hbucket]
        exact fun h => absurd h (by simp)

/-- A table without tombstones: every bucket in use holds a key. -/
def NoTombstone (buckets : List (Bucket K V)) : Prop :=
  buckets.countP used = buckets.countP live

/-- A key goes to the first bucket of its search that is not occupied, which is empty. -/
theorem Holds.place [DecidableEq K] (h : Holds hash buckets m) (hclean : NoTombstone buckets)
    (hroom : buckets.countP used < buckets.length) {k : K} (hnone : m k = none) (v : V) :
    ∃ i, freeBucket buckets buckets.length (hash k &&& (buckets.length - 1)) = some i ∧
      Holds hash (buckets.set i (.occupied k v)) (Function.update m k (some v)) ∧
      (buckets.set i (.occupied k v)).countP used = buckets.countP used + 1 ∧
      NoTombstone (buckets.set i (.occupied k v)) := by
  obtain ⟨p, hp⟩ := h.pow
  obtain ⟨d, hfree, hpath, hfreed⟩ := freeBucket_spec hp (hasEmpty_of_lt hroom) buckets.length
    (Nat.zero_add _) fun d' hd' => absurd hd' (Nat.not_lt_zero d')
  have hlt := slot_lt h.length_pos (hash k) d
  have hput := h.put (some v) hpath (fun k' w hw => absurd hw (hfreed k' w)) fun j w hw =>
    absurd hw (h.eq_none hnone j w)
  -- without tombstones, a bucket that is not occupied is empty
  have hslot : bucketAt buckets (slot buckets.length (hash k) d) = .empty := by
    cases hbucket : bucketAt buckets (slot buckets.length (hash k) d) with
    | empty => rfl
    | occupied k' w => exact absurd hbucket (hfreed k' w)
    | tombstone =>
      have hused := countP_set used hlt .empty
      have hlive := countP_set live hlt .empty
      have hle : (buckets.set (slot buckets.length (hash k) d) .empty).countP live ≤
        (buckets.set (slot buckets.length (hash k) d) .empty).countP used := countP_live_le_used
      rw [hbucket] at hused hlive
      simp only [used, live, Bucket.entry, Option.isSome_none, if_true, Bool.false_eq_true,
        if_false] at hused hlive
      unfold NoTombstone at hclean
      omega
  have hused := countP_set used hlt (.occupied k v)
  have hlive := countP_set live hlt (.occupied k v)
  rw [hslot] at hused hlive
  simp only [used, live, Bucket.entry, Option.isSome_none, Option.isSome_some, if_true,
    Bool.false_eq_true, if_false, Nat.add_zero] at hused hlive
  refine ⟨slot buckets.length (hash k) d, ?_, hput, hused, ?_⟩
  · rw [slot_zero hp]
    exact hfree
  · unfold NoTombstone at hclean ⊢
    omega

/-- Moving buckets into a table that has room for them adds their keys. -/
theorem rehash_spec [DecidableEq K] {new : List (Bucket K V)} {m : K → Option V} (rest : List (Bucket K V))
    (h : Holds hash new m) (hroom : new.countP used + rest.countP live < new.length)
    (hclean : NoTombstone new) (hfresh : ∀ k v, Bucket.occupied k v ∈ rest → m k = none)
    (hnodup : ((rest.filterMap Bucket.entry).map Prod.fst).Nodup) :
    ∃ new' m', rehash hash new (new.countP used) rest = some (new', new'.countP used) ∧
      new'.length = new.length ∧ new'.countP used = new.countP used + rest.countP live ∧
      NoTombstone new' ∧ Holds hash new' m' ∧
      ∀ k v, m' k = some v ↔ m k = some v ∨ Bucket.occupied k v ∈ rest := by
  induction rest generalizing new m with
  | nil => exact ⟨new, m, rfl, rfl, rfl, hclean, h, fun k v => by simp⟩
  | cons bucket rest ih =>
    -- a bucket without a key is passed over
    have hskip (hbucket : bucket.entry = none) : ∃ new' m',
        rehash hash new (new.countP used) rest = some (new', new'.countP used) ∧
        new'.length = new.length ∧ new'.countP used = new.countP used + (bucket :: rest).countP live ∧
        NoTombstone new' ∧ Holds hash new' m' ∧
        ∀ k v, m' k = some v ↔ m k = some v ∨ Bucket.occupied k v ∈ bucket :: rest := by
      have hlive : (bucket :: rest).countP live = rest.countP live := by
        rw [List.countP_cons, live, hbucket]
        rfl
      rw [List.filterMap_cons_none hbucket] at hnodup
      rw [hlive] at hroom ⊢
      obtain ⟨new', m', heq, hlen, hcount, hclean', hholds, hmap⟩ := ih h hroom hclean
        (fun k v hmem => hfresh k v (List.mem_cons_of_mem _ hmem)) hnodup
      refine ⟨new', m', heq, hlen, hcount, hclean', hholds, fun k v => (hmap k v).trans ?_⟩
      have hne : Bucket.occupied k v ≠ bucket := by
        rintro rfl
        cases hbucket
      rw [List.mem_cons]
      simp only [hne, false_or]
    cases bucket with
    | empty => exact hskip rfl
    | tombstone => exact hskip rfl
    | occupied k v =>
      have hone : (Bucket.occupied k v :: rest).countP live = rest.countP live + 1 := by
        rw [List.countP_cons]
        rfl
      have hcons : ((Bucket.occupied k v :: rest).filterMap Bucket.entry) =
        (k, v) :: rest.filterMap Bucket.entry := rfl
      rw [hone] at hroom ⊢
      rw [hcons, List.map_cons, List.nodup_cons] at hnodup
      obtain ⟨i, hfree, hholds, hcount, hclean'⟩ := h.place hclean (by omega)
        (hfresh k v List.mem_cons_self) v
      -- the key is not among those still to come
      have hfresh' : ∀ k' v', Bucket.occupied k' v' ∈ rest → Function.update m k (some v) k' = none := by
        intro k' v' hmem
        have hne : k' ≠ k := by
          rintro rfl
          refine hnodup.1 (List.mem_map.mpr ⟨(k', v'), ?_, rfl⟩)
          exact List.mem_filterMap.mpr ⟨_, hmem, rfl⟩
        rw [Function.update_of_ne hne]
        exact hfresh k' v' (List.mem_cons_of_mem _ hmem)
      have hroom' : (new.set i (.occupied k v)).countP used + rest.countP live <
          (new.set i (.occupied k v)).length := by
        rw [List.length_set, hcount]
        omega
      obtain ⟨new', m', heq, hlen, hcount', hclean'', hholds', hmap⟩ :=
        ih hholds hroom' hclean' hfresh' hnodup.2
      refine ⟨new', m', ?_, hlen.trans List.length_set, by omega, hclean'', hholds', fun k' v' => ?_⟩
      · rw [rehash, hfree, ← hcount]
        exact heq
      · rw [hmap, List.mem_cons]
        rcases eq_or_ne k' k with rfl | hne
        · rw [Function.update_self, hfresh k' v List.mem_cons_self]
          simp [eq_comm]
        · rw [Function.update_of_ne hne]
          simp [hne]

theorem bucketAt_replicate (n i : ℕ) : bucketAt (List.replicate n (.empty : Bucket K V)) i = .empty := by
  by_contra hne
  have hlt := lt_of_bucketAt hne
  rw [bucketAt_eq_getElem hlt, List.getElem_replicate] at hne
  exact hne rfl

/-- Empty buckets hold the empty map. -/
theorem holds_replicate (hash : K → ℕ) {n p : ℕ} (hp : n = 2 ^ p) :
    Holds hash (List.replicate n (.empty : Bucket K V)) fun _ => none := by
  have hnot (i : ℕ) (k : K) (v : V) :
      bucketAt (List.replicate n (.empty : Bucket K V)) i ≠ .occupied k v := by
    rw [bucketAt_replicate]
    exact fun h => absurd h (by simp)
  refine ⟨⟨p, by rw [List.length_replicate, hp]⟩, fun i j k v w hi => absurd hi (hnot i k v),
    fun k v => ⟨fun h => (absurd h (by simp)), ?_⟩, fun i k v hi => absurd hi (hnot i k v)⟩
  rintro ⟨i, hi⟩
  exact absurd hi (hnot i k v)

theorem countP_replicate_empty (n : ℕ) :
    (List.replicate n (.empty : Bucket K V)).countP used = 0 ∧
      (List.replicate n (.empty : Bucket K V)).countP live = 0 :=
  ⟨List.countP_replicate, List.countP_replicate⟩

variable [DecidableEq K]

/-- A rebuilt table holds the same map, with room for another key. -/
theorem Sound.resize (h : Sound hash t m) :
    ∃ t', t.resize hash = some t' ∧ Sound hash t' m ∧ t'.occupiedCount + 1 < t'.buckets.length := by
  obtain ⟨p, hp⟩ := h.holds.pow
  have hpow : max (t.buckets.length * 2) initialCapacity = 2 ^ max (p + 1) 4 := by
    rw [hp, ← Nat.pow_succ]
    rcases Nat.le_total (p + 1) 4 with hle | hge
    · rw [Nat.max_eq_right hle]
      exact Nat.max_eq_right (Nat.pow_le_pow_right Nat.two_pos hle)
    · rw [Nat.max_eq_left hge]
      exact Nat.max_eq_left (Nat.pow_le_pow_right Nat.two_pos hge)
  obtain ⟨hused, hlive⟩ := countP_replicate_empty (K := K) (V := V)
    (max (t.buckets.length * 2) initialCapacity)
  have hle : t.buckets.countP live ≤ t.buckets.countP used := countP_live_le_used
  have hroom := h.room
  rw [h.count] at hroom
  have hpos := h.holds.length_pos
  obtain ⟨new, m', heq, hlen, hcount, hclean, hholds, hmap⟩ := rehash_spec t.buckets
    (holds_replicate hash hpow) (by rw [List.length_replicate, hused]; omega)
    (hused.trans hlive.symm) (fun _ _ _ => rfl) h.holds.nodup
  have hsame : m' = m := by
    funext k
    refine Option.ext fun v => ?_
    rw [hmap, h.holds.mem_iff]
    simp
  rw [hused] at heq hcount
  rw [List.length_replicate] at hlen
  refine ⟨{ t with buckets := new, occupiedCount := new.countP used }, ?_, ⟨?_, rfl, ?_, ?_⟩, ?_⟩
  · rw [OpenAddressMap.resize, heq]
    rfl
  · exact hsame ▸ hholds
  · change t.len = _
    rw [h.len, ← hclean, hcount, Nat.zero_add]
  · dsimp only
    omega
  · dsimp only
    omega

/-- The loop of `insert` puts a new key in the first tombstone it met, or in the empty bucket it stopped
at, and a key that is there in its own bucket. -/
theorem Holds.insertLoop_spec (h : Holds hash t.buckets m) (hempty : HasEmpty t.buckets) {k : K}
    (value : V) (rounds : ℕ) {d : ℕ} {firstTombstone : Option ℕ}
    (hrounds : d + rounds = t.buckets.length) (hbehind : Behind hash t.buckets k d)
    (hfirst : ∀ i, firstTombstone = some i → ∃ d' < d, slot t.buckets.length (hash k) d' = i ∧
      bucketAt t.buckets i = .tombstone) :
    ∃ d', (∀ d'' < d', bucketAt t.buckets (slot t.buckets.length (hash k) d'') ≠ .empty) ∧
      ((m k = none ∧ ∃ count, t.insertLoop k value rounds (slot t.buckets.length (hash k) d)
          firstTombstone = some (none, { t with
            buckets := t.buckets.set (slot t.buckets.length (hash k) d') (.occupied k value)
            occupiedCount := count
            len := t.len + 1 }) ∧
        (bucketAt t.buckets (slot t.buckets.length (hash k) d') = .empty ∧ count = t.occupiedCount + 1 ∨
          bucketAt t.buckets (slot t.buckets.length (hash k) d') = .tombstone ∧
            count = t.occupiedCount)) ∨
      ∃ v, m k = some v ∧ bucketAt t.buckets (slot t.buckets.length (hash k) d') = .occupied k v ∧
        t.insertLoop k value rounds (slot t.buckets.length (hash k) d) firstTombstone =
          some (some v, { t with
            buckets := t.buckets.set (slot t.buckets.length (hash k) d') (.occupied k value) })) := by
  obtain ⟨p, hp⟩ := h.pow
  induction rounds generalizing d firstTombstone with
  | zero =>
    have hlt := hempty.lt hbehind.used
    omega
  | succ rounds ih =>
    rw [insertLoop]
    have hnext := slot_succ hp (hash k) d
    cases hbucket : bucketAt t.buckets (slot t.buckets.length (hash k) d) with
    | empty =>
      have hnone := h.absent hbehind.missed hbucket
      cases firstTombstone with
      | none => exact ⟨d, hbehind.used, Or.inl ⟨hnone, _, rfl, Or.inl ⟨hbucket, rfl⟩⟩⟩
      | some i =>
        obtain ⟨d', hd', rfl, htomb⟩ := hfirst i rfl
        exact ⟨d', fun d'' hd'' => hbehind.used d'' (hd''.trans hd'),
          Or.inl ⟨hnone, _, rfl, Or.inr ⟨htomb, rfl⟩⟩⟩
    | tombstone =>
      dsimp only
      rw [hnext]
      refine ih (by omega) (hbehind.succ (by rw [hbucket]; exact fun h => absurd h (by simp))
        (by rw [hbucket]; exact fun v h => absurd h (by simp))) fun i hi => ?_
      cases firstTombstone with
      | none =>
        cases hi
        exact ⟨d, Nat.lt_succ_self d, rfl, hbucket⟩
      | some j =>
        obtain ⟨d', hd', hslot⟩ := hfirst j rfl
        cases hi
        exact ⟨d', hd'.trans (Nat.lt_succ_self d), hslot⟩
    | occupied k' v =>
      dsimp only
      by_cases hk : k' = k
      · subst hk
        rw [if_pos rfl]
        exact ⟨d, hbehind.used, Or.inr ⟨v, (h.stores k' v).mpr ⟨_, hbucket⟩, hbucket, rfl⟩⟩
      · rw [if_neg hk, hnext]
        refine ih (by omega) (hbehind.succ (by rw [hbucket]; exact fun h => absurd h (by simp)) ?_) fun i hi => ?_
        · rw [hbucket]
          intro w heq
          cases heq
          exact hk rfl
        · obtain ⟨d', hd', hslot⟩ := hfirst i hi
          exact ⟨d', hd'.trans (Nat.lt_succ_self d), hslot⟩

/-! ## Operations -/

/-- The key's own bucket gets a new value, or a tombstone. -/
theorem Sound.rewrite (h : Sound hash t m) {k : K} {v : V} {d : ℕ}
    (hused : ∀ d' < d, bucketAt t.buckets (slot t.buckets.length (hash k) d') ≠ .empty)
    (hbucket : bucketAt t.buckets (slot t.buckets.length (hash k) d) = .occupied k v) (x : Option V) :
    Sound hash { t with
      buckets := t.buckets.set (slot t.buckets.length (hash k) d) (stored k x)
      len := if x.isSome then t.len else t.len - 1 } (Function.update m k x) := by
  have hlt := slot_lt h.holds.length_pos (hash k) d
  have hcount := countP_set used hlt (stored k x)
  have hlive := countP_set live hlt (stored k x)
  rw [hbucket] at hcount hlive
  have hstored : used (stored k x) = true := by cases x <;> rfl
  have hone : live (.occupied k v : Bucket K V) = true := rfl
  rw [hstored] at hcount
  simp only [used, if_true] at hcount
  rw [if_pos hone] at hlive
  refine ⟨?_, ?_, ?_, ?_⟩
  · refine h.holds.put x hused (fun k' w hw => ?_) fun j w hw => h.holds.unique _ _ k v w hbucket hw
    rw [hbucket] at hw
    cases hw
    rfl
  · change t.occupiedCount = _
    rw [h.count]
    dsimp only
    omega
  · have hlen := h.len
    cases x with
    | some w =>
      have hstill : live (stored k (some w)) = true := rfl
      rw [if_pos hstill] at hlive
      dsimp only [Option.isSome_some]
      rw [if_pos rfl]
      omega
    | none =>
      have hgone : live (stored k (none : Option V)) = false := rfl
      rw [hgone] at hlive
      simp only [Bool.false_eq_true, if_false] at hlive
      dsimp only [Option.isSome_none]
      simp only [Bool.false_eq_true, if_false]
      omega
  · dsimp only
    rw [List.length_set]
    exact h.room

/-- The search for a key, from its own bucket. -/
theorem Sound.lookup (h : Sound hash t m) (k : K) :
    (m k = none ∧ t.lookup hash k = some none) ∨
    ∃ d v, m k = some v ∧
      (∀ d' < d, bucketAt t.buckets (slot t.buckets.length (hash k) d') ≠ .empty) ∧
      bucketAt t.buckets (slot t.buckets.length (hash k) d) = .occupied k v ∧
      t.lookup hash k = some (some (slot t.buckets.length (hash k) d, v)) := by
  obtain ⟨p, hp⟩ := h.holds.pow
  unfold OpenAddressMap.lookup
  rw [slot_zero hp]
  rcases h.holds.find_spec h.hasEmpty t.buckets.length (Nat.zero_add _) Behind.zero with
    hnone | ⟨d, v, hm, hbehind, hbucket, hfind⟩
  · exact Or.inl hnone
  · exact Or.inr ⟨d, v, hm, hbehind.used, hbucket, hfind⟩

theorem Sound.get (h : Sound hash t m) (k : K) : t.get hash k = some (m k) := by
  unfold OpenAddressMap.get
  rcases h.lookup k with ⟨hm, hlookup⟩ | ⟨d, v, hm, -, -, hlookup⟩
  · rw [hlookup, hm]
    rfl
  · rw [hlookup, hm]
    rfl

theorem Sound.getMut (h : Sound hash t m) (k : K) (update : V → V) :
    ∃ t', t.getMut hash k update = some (m k, t') ∧
      Sound hash t' (Function.update m k ((m k).map update)) := by
  unfold OpenAddressMap.getMut
  rcases h.lookup k with ⟨hm, hlookup⟩ | ⟨d, v, hm, hused, hbucket, hlookup⟩
  · refine ⟨t, by rw [hlookup, hm]; rfl, ?_⟩
    rw [hm, Option.map_none, ← hm, Function.update_eq_self]
    exact h
  · refine ⟨_, by rw [hlookup, hm]; rfl, ?_⟩
    rw [hm]
    exact h.rewrite hused hbucket (some (update v))

theorem Sound.remove (h : Sound hash t m) (k : K) :
    ∃ t', t.remove hash k = some (m k, t') ∧ Sound hash t' (Function.update m k none) := by
  unfold OpenAddressMap.remove
  rcases h.lookup k with ⟨hm, hlookup⟩ | ⟨d, v, hm, hused, hbucket, hlookup⟩
  · refine ⟨t, by rw [hlookup, hm]; rfl, ?_⟩
    rw [← hm, Function.update_eq_self]
    exact h
  · refine ⟨_, by rw [hlookup, hm]; rfl, ?_⟩
    exact h.rewrite hused hbucket none

/-- A key is inserted where there is room for another one. -/
theorem Sound.insertLoop (h : Sound hash t m) (hroom : t.occupiedCount + 1 < t.buckets.length) (k : K)
    (v : V) :
    ∃ t', t.insertLoop k v t.buckets.length (hash k &&& (t.buckets.length - 1)) none =
        some (m k, t') ∧ Sound hash t' (Function.update m k (some v)) := by
  obtain ⟨p, hp⟩ := h.holds.pow
  rw [slot_zero hp]
  obtain ⟨d, hused, hcases⟩ := h.holds.insertLoop_spec h.hasEmpty v t.buckets.length
    (Nat.zero_add _) Behind.zero fun i (hi : none = some i) => absurd hi (by simp)
  rcases hcases with ⟨hm, count, heq, hbucket⟩ | ⟨w, hm, hbucket, heq⟩
  · refine ⟨_, by rw [heq, hm], ?_⟩
    have hlt := slot_lt h.holds.length_pos (hash k) d
    have hcount := countP_set used hlt (.occupied k v)
    have hlive := countP_set live hlt (.occupied k v)
    have hlen := h.len
    have hold := h.count
    have hnot : ∀ k' w, bucketAt t.buckets (slot t.buckets.length (hash k) d) ≠ .occupied k' w := by
      rcases hbucket with ⟨hempty, -⟩ | ⟨htomb, -⟩
      · rw [hempty]
        exact fun k' w h => absurd h (by simp)
      · rw [htomb]
        exact fun k' w h => absurd h (by simp)
    have hput := h.holds.put (some v) hused (fun k' w hw => absurd hw (hnot k' w)) fun j w hw =>
      absurd hw (h.holds.eq_none hm j w)
    -- a tombstone was counted before, an empty bucket was not
    rcases hbucket with ⟨hempty, rfl⟩ | ⟨htomb, rfl⟩
    · rw [hempty] at hcount hlive
      simp only [used, live, Bucket.entry, Option.isSome_none, Option.isSome_some, if_true,
        Bool.false_eq_true, if_false, Nat.add_zero] at hcount hlive
      refine ⟨hput, ?_, ?_, ?_⟩ <;> dsimp only
      · omega
      · omega
      · rw [List.length_set]
        exact hroom
    · rw [htomb] at hcount hlive
      simp only [used, live, Bucket.entry, Option.isSome_none, Option.isSome_some, if_true,
        Bool.false_eq_true, if_false, Nat.add_zero] at hcount hlive
      refine ⟨hput, ?_, ?_, ?_⟩ <;> dsimp only
      · omega
      · omega
      · rw [List.length_set]
        omega
  · exact ⟨_, by rw [heq, hm]; rfl, h.rewrite hused hbucket (some v)⟩

theorem Sound.insert (h : Sound hash t m) (k : K) (v : V) :
    ∃ t', t.insert hash k v = some (m k, t') ∧ Sound hash t' (Function.update m k (some v)) := by
  unfold OpenAddressMap.insert
  have hpos := h.holds.length_pos
  by_cases hload : (t.occupiedCount + 1) * 100 / t.buckets.length ≥ maxLoadFactorPercent
  · obtain ⟨t₁, hresize, hsound, hroom⟩ := h.resize
    obtain ⟨t', heq, hsound'⟩ := hsound.insertLoop hroom k v
    refine ⟨t', ?_, hsound'⟩
    rw [if_pos hload, hresize]
    exact heq
  · -- below the load factor there is room for another key
    have hroom : t.occupiedCount + 1 < t.buckets.length := by
      have hlt := (Nat.div_lt_iff_lt_mul hpos).mp (Nat.lt_of_not_ge hload)
      have hfactor : maxLoadFactorPercent = 70 := rfl
      rw [hfactor] at hlt
      omega
    obtain ⟨t', heq, hsound'⟩ := h.insertLoop hroom k v
    refine ⟨t', ?_, hsound'⟩
    rw [if_neg hload]
    exact heq

omit [DecidableEq K] in
theorem Sound.enumerates (h : Sound hash t m) : FiniteMap.Enumerates m t.iter := by
  refine ⟨h.holds.nodup, fun k v => ?_⟩
  rw [← h.holds.mem_iff, iter, List.mem_filterMap]
  constructor
  · rintro ⟨bucket, hmem, hentry⟩
    cases bucket with
    | empty => cases hentry
    | tombstone => cases hentry
    | occupied k' v' =>
      cases hentry
      exact hmem
  · exact fun hmem => ⟨_, hmem, rfl⟩

omit [DecidableEq K] in
theorem Sound.length_iter (h : Sound hash t m) : t.iter.length = t.len := by
  rw [h.len, iter, List.length_filterMap_eq_countP]
  rfl

omit [DecidableEq K] in
/-- A table of empty buckets. -/
theorem sound_replicate (hash : K → ℕ) {n p : ℕ} (hp : n = 2 ^ p) :
    Sound hash (⟨List.replicate n .empty, 0, 0⟩ : OpenAddressMap K V) fun _ => none := by
  obtain ⟨hused, hlive⟩ := countP_replicate_empty (K := K) (V := V) n
  refine ⟨holds_replicate hash hp, hused.symm, hlive.symm, ?_⟩
  rw [List.length_replicate, hp]
  exact Nat.two_pow_pos p

omit [DecidableEq K] in
theorem Sound.clear (h : Sound hash t m) : Sound hash t.clear fun _ => none := by
  obtain ⟨p, hp⟩ := h.holds.pow
  unfold OpenAddressMap.clear
  rw [List.map_const']
  exact sound_replicate hash hp

/-- Every operation ends with the result of the map. -/
theorem Sound.step (h : Sound hash t m) (op : FiniteMap.Op K V) :
    ∃ result t', t.step hash op = some (result, t') ∧ FiniteMap.Accepts m op result ∧
      Sound hash t' (FiniteMap.next m op) := by
  cases op with
  | insert k v =>
    obtain ⟨t', heq, hsound⟩ := h.insert k v
    exact ⟨.value (m k), t', by rw [OpenAddressMap.step, heq]; rfl, rfl, hsound⟩
  | get k => exact ⟨.value (m k), t, by rw [OpenAddressMap.step, h.get]; rfl, rfl, h⟩
  | getMut k update =>
    obtain ⟨t', heq, hsound⟩ := h.getMut k update
    exact ⟨.value (m k), t', by rw [OpenAddressMap.step, heq]; rfl, rfl, hsound⟩
  | remove k =>
    obtain ⟨t', heq, hsound⟩ := h.remove k
    exact ⟨.value (m k), t', by rw [OpenAddressMap.step, heq]; rfl, rfl, hsound⟩
  | containsKey k => exact ⟨.flag (m k).isSome, t, by rw [OpenAddressMap.step, h.get]; rfl, rfl, h⟩
  | iter => exact ⟨_, t, rfl, h.enumerates, h⟩
  | len => exact ⟨_, t, rfl, ⟨t.iter, h.enumerates, h.length_iter⟩, h⟩
  | clear => exact ⟨.unit, t.clear, rfl, trivial, h.clear⟩

end OpenAddressMap

end SaeOS.Collections

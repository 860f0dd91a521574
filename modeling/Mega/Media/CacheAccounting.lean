/-
# The membership cache keeps its account

The cache of `ceres/lfs/media/membership_cache.rs` keeps, for a layout, the hashes
and lengths of its chunks. It bills each record and evicts those that were not used
for longest. After any gets, inserts, replacements and clears the billed bytes are the sum of
the billed sizes of the records that are present and within the capacity, and the
queue holds the present keys, each once, in the order of their last use. So the
keys that an insert evicts, which it takes from the front of the queue, were used
before all that stay.

The counter saturates at `usize::MAX`. What a record is billed is a small multiple of
the memory it takes, so the records held and a new one are billed less than `2 ^ 64`
together (`Addressable`), and saturation never shows.

Key definitions: `MembershipCache.insert`, `CacheOp`, `Addressable`, `Counted`, `Accounted`.
Key theorems: `evict_spec`, `insert_spec`, `cache_accounting`.
-/
import Mega.Lib.Recency
import Mega.Lib.Run
import Mega.Media.Programs
import Mega.View.MemoAccounting

namespace Mega
namespace Media

open List
open View (Text saturatingAdd saturatingAdd_of_lt)

/-! ### The cache -/

/-- The digest of a scope and the id of a manifest. -/
abbrev CacheKey := Text × Text

def entryOverhead : ℕ := 256
def perHashOverhead : ℕ := 64 + 8 + 32

def MembershipRecord.billedBytes (record : MembershipRecord) : ℕ :=
  entryOverhead + ((record.lengths.map Prod.fst).dedup.map fun hash =>
    saturatingAdd (hash.map Char.utf8Size).sum perHashOverhead).sum

structure MembershipCache where
  map : CacheKey → Option MembershipRecord
  /-- The keys, the one used last at the end. -/
  order : List CacheKey
  billed : ℕ
  capacity : ℕ

namespace MembershipCache

def withCapacity (capacity : ℕ) : MembershipCache := ⟨fun _ => none, [], 0, capacity⟩

def get (cache : MembershipCache) (key : CacheKey) : MembershipCache × Option MembershipRecord :=
  match cache.map key with
  | none => (cache, none)
  | some record =>
    ({ cache with order := if key ∈ cache.order then cache.order.erase key ++ [key] else cache.order }, some record)

/-- The record of the key is taken out. -/
def remove (cache : MembershipCache) (key : CacheKey) : MembershipCache :=
  match cache.map key with
  | none => cache
  | some old =>
    { cache with
      map := Function.update cache.map key none
      billed := cache.billed - old.billedBytes
      order := cache.order.erase key }

/-- The loop of `insert`: the first keys in the order go until the cost fits. -/
def evict (capacity cost : ℕ) : List CacheKey → (CacheKey → Option MembershipRecord) → ℕ → MembershipCache
  | [], map, billed => ⟨map, [], billed, capacity⟩
  | victim :: order, map, billed =>
    if saturatingAdd billed cost > capacity then
      evict capacity cost order (Function.update map victim none)
        (billed - (map victim).elim 0 MembershipRecord.billedBytes)
    else ⟨map, victim :: order, billed, capacity⟩

def insert (cache : MembershipCache) (key : CacheKey) (record : MembershipRecord) : MembershipCache :=
  let cost := record.billedBytes
  let cache := cache.remove key
  if cost > cache.capacity then cache
  else
    let cache := evict cache.capacity cost cache.order cache.map cache.billed
    if saturatingAdd cache.billed cost > cache.capacity then cache
    else
      ⟨Function.update cache.map key (some record), cache.order ++ [key], saturatingAdd cache.billed cost,
        cache.capacity⟩

end MembershipCache

/-! ### Operations -/

def MembershipCache.clear (cache : MembershipCache) : MembershipCache :=
  { cache with map := fun _ => none, order := [], billed := 0 }

/-- An insert of a key that is present replaces its record. -/
inductive CacheOp where
  | get (key : CacheKey)
  | insert (key : CacheKey) (record : MembershipRecord)
  | clear

namespace CacheOp

def apply (cache : MembershipCache) : CacheOp → MembershipCache
  | .get key => (cache.get key).1
  | .insert key record => cache.insert key record
  | .clear => cache.clear

/-- The operation is about the key. If the key is present afterwards, it was found or stored. -/
def uses : CacheOp → CacheKey → Bool
  | .get key, k => key = k
  | .insert key _, k => key = k
  | .clear, _ => false

end CacheOp

/-! ### The count -/

abbrev Records := CacheKey → Option MembershipRecord

def billedOf (map : Records) (key : CacheKey) : ℕ := (map key).elim 0 MembershipRecord.billedBytes

/-- The sum of the billed sizes of the records of the keys. -/
def billedSum (map : Records) (keys : List CacheKey) : ℕ := (keys.map (billedOf map)).sum

/-- The records that are held and a new one are in one address space. -/
def Addressable (cache : MembershipCache) : CacheOp → Prop
  | .insert _ record => billedSum cache.map cache.order + record.billedBytes < 2 ^ 64
  | _ => True

/-- The queue holds the present keys, each once, and the count is right. -/
structure Counted (order : List CacheKey) (map : Records) (billed : ℕ) : Prop where
  nodup : order.Nodup
  present : ∀ key, key ∈ order ↔ (map key).isSome
  billed : billed = billedSum map order

theorem billedSum_cons (map : Records) (key : CacheKey) (keys : List CacheKey) :
    billedSum map (key :: keys) = billedOf map key + billedSum map keys := by
  rw [billedSum, map_cons, sum_cons]
  rfl

theorem billedSum_concat (map : Records) (keys : List CacheKey) (key : CacheKey) :
    billedSum map (keys ++ [key]) = billedSum map keys + billedOf map key := by
  rw [billedSum, map_append, sum_append, map_singleton, sum_singleton]
  rfl

theorem billedSum_perm {map : Records} {keys keys' : List CacheKey} (h : keys.Perm keys') :
    billedSum map keys = billedSum map keys' := (h.map _).sum_eq

/-- The records of other keys do not matter. -/
theorem billedSum_update {map : Records} {key : CacheKey} {value : Option MembershipRecord} {keys : List CacheKey}
    (h : key ∉ keys) : billedSum (Function.update map key value) keys = billedSum map keys := by
  unfold billedSum
  congr 1
  refine map_congr_left fun k hk => ?_
  have hne : k ≠ key := fun heq => h (heq ▸ hk)
  rw [billedOf, Function.update_of_ne hne, billedOf]

/-- **A key is taken out of the queue, with its record.** -/
theorem Counted.erase {order : List CacheKey} {map : Records} {billed : ℕ} (h : Counted order map billed)
    {key : CacheKey} (hkey : key ∈ order) :
    Counted (order.erase key) (Function.update map key none) (billed - billedOf map key) := by
  have hfresh : key ∉ order.erase key := h.nodup.not_mem_erase
  refine ⟨h.nodup.erase key, fun k => ?_, ?_⟩
  · rw [h.nodup.mem_erase_iff]
    by_cases hk : k = key
    · simp [hk]
    · rw [Function.update_of_ne hk, ← h.present k]
      exact and_iff_right hk
  · rw [billedSum_update hfresh, h.billed, billedSum_perm (perm_cons_erase hkey), billedSum_cons,
      Nat.add_sub_cancel_left]

theorem Counted.insert {order : List CacheKey} {map : Records} {billed : ℕ} (h : Counted order map billed)
    {key : CacheKey} (hkey : key ∉ order) (record : MembershipRecord) :
    Counted (order ++ [key]) (Function.update map key (some record)) (billed + record.billedBytes) := by
  refine ⟨?_, fun k => ?_, ?_⟩
  · exact nodup_append.mpr ⟨h.nodup, nodup_singleton key, fun a ha b hb heq =>
      hkey (by rw [← mem_singleton.mp hb, ← heq]; exact ha)⟩
  · rw [mem_append, mem_singleton]
    by_cases hk : k = key
    · simp [hk]
    · rw [Function.update_of_ne hk, ← h.present k]
      exact or_iff_left hk
  · rw [billedSum_concat, billedSum_update hkey, ← h.billed, billedOf, Function.update_self]
    rfl

/-! ### Evicting -/

/-- The keys go from the front of the queue, the others keep their records. -/
structure Evicts (order : List CacheKey) (map : Records) (victims : List CacheKey) (after : MembershipCache) : Prop where
  order : order = victims ++ after.order
  counted : Counted after.order after.map after.billed
  kept : ∀ key ∈ after.order, after.map key = map key

/-- **Eviction takes keys from the front of the queue until there is room.** -/
theorem evict_spec {capacity cost : ℕ} (hcost : cost ≤ capacity) :
    ∀ {order : List CacheKey} {map : Records} {billed : ℕ}, Counted order map billed → billed + cost < 2 ^ 64 →
      ∃ victims, Evicts order map victims (MembershipCache.evict capacity cost order map billed) ∧
        (MembershipCache.evict capacity cost order map billed).billed + cost ≤ capacity ∧
        (MembershipCache.evict capacity cost order map billed).capacity = capacity
  | [], map, billed, h, _ => by
    have hzero : billed = 0 := h.billed
    refine ⟨[], ⟨rfl, h, fun _ _ => rfl⟩, ?_, rfl⟩
    show billed + cost ≤ capacity
    omega
  | victim :: order, map, billed, h, hmemory => by
    rw [MembershipCache.evict, saturatingAdd_of_lt hmemory]
    split_ifs with hfull
    · have hrest := h.erase mem_cons_self
      rw [erase_cons_head] at hrest
      obtain ⟨victims, ⟨horder, hcounted, hkept⟩, hroom⟩ :=
        evict_spec hcost hrest ((Nat.add_le_add_right (Nat.sub_le _ _) _).trans_lt hmemory)
      refine ⟨victim :: victims, ⟨congrArg (victim :: ·) horder, hcounted, fun key hkey => ?_⟩, hroom⟩
      have hmem : key ∈ order := by rw [horder]; exact mem_append_right _ hkey
      have hne : key ≠ victim := fun heq => (nodup_cons.mp h.nodup).1 (heq ▸ hmem)
      rw [← Function.update_of_ne hne none map]
      exact hkept key hkey
    · exact ⟨[], ⟨rfl, h, fun _ _ => rfl⟩, not_lt.mp hfull, rfl⟩

/-! ### One operation -/

/-- What holds of the cache after every operation. -/
structure Accounted (capacity : ℕ) (cache : MembershipCache) : Prop where
  counted : Counted cache.order cache.map cache.billed
  sized : cache.capacity = capacity
  within : cache.billed ≤ capacity

theorem remove_spec {cache : MembershipCache} (h : Counted cache.order cache.map cache.billed) (key : CacheKey) :
    (cache.remove key).order = cache.order.erase key ∧ (cache.remove key).capacity = cache.capacity ∧
      (cache.remove key).billed ≤ cache.billed ∧
      Counted (cache.remove key).order (cache.remove key).map (cache.remove key).billed ∧
      ∀ k ∈ cache.order.erase key, (cache.remove key).map k = cache.map k := by
  cases hmap : cache.map key with
  | none =>
    have hfresh : key ∉ cache.order := by rw [h.present, hmap]; exact Bool.false_ne_true
    have hsame : cache.remove key = cache := by rw [MembershipCache.remove, hmap]
    rw [hsame]
    exact ⟨(erase_of_not_mem hfresh).symm, rfl, le_rfl, h, fun _ _ => rfl⟩
  | some old =>
    have hkey : key ∈ cache.order := by rw [h.present, hmap]; rfl
    have herase := h.erase hkey
    rw [billedOf, hmap] at herase
    rw [MembershipCache.remove, hmap]
    refine ⟨rfl, rfl, Nat.sub_le _ _, herase, fun k hk => ?_⟩
    exact Function.update_of_ne (h.nodup.mem_erase_iff.mp hk).1 _ _

/-- **What an insert does**: a front part of the queue of the other keys goes, and the key comes to the end, if its
record fits the capacity. -/
theorem insert_spec {capacity : ℕ} {cache : MembershipCache} (h : Accounted capacity cache) {key : CacheKey}
    {record : MembershipRecord} (hmemory : Addressable cache (.insert key record)) :
    Accounted capacity (cache.insert key record) ∧ ∃ victims kept, cache.order.erase key = victims ++ kept ∧
      ((cache.insert key record).order = kept ∨ (cache.insert key record).order = kept ++ [key]) ∧
      ∀ k ∈ kept, (cache.insert key record).map k = cache.map k := by
  obtain ⟨hcounted, rfl, hwithin⟩ := h
  obtain ⟨horder, hsame, hless, hremoved, hkeeps⟩ := remove_spec hcounted key
  rw [Addressable, ← hcounted.billed] at hmemory
  by_cases hcost : record.billedBytes ≤ cache.capacity
  · obtain ⟨victims, ⟨hsplit, hcount, hkept⟩, hspace, hcap⟩ := evict_spec hcost hremoved (by omega)
    obtain ⟨room, hroom⟩ : ∃ room, MembershipCache.evict cache.capacity record.billedBytes (cache.remove key).order
        (cache.remove key).map (cache.remove key).billed = room := ⟨_, rfl⟩
    rw [hroom] at hsplit hcount hkept hspace hcap
    have hrest : room.billed ≤ (cache.remove key).billed := by
      have hsame : room.order.map (billedOf room.map) = room.order.map (billedOf (cache.remove key).map) :=
        map_congr_left fun k hk => by rw [billedOf, hkept k hk, billedOf]
      rw [hcount.billed, hremoved.billed, hsplit, billedSum, billedSum, map_append, sum_append, hsame]
      exact Nat.le_add_left _ _
    rw [horder] at hsplit
    have hfits : saturatingAdd room.billed record.billedBytes = room.billed + record.billedBytes :=
      saturatingAdd_of_lt (by omega)
    have hinsert : cache.insert key record = ⟨Function.update room.map key (some record), room.order ++ [key],
        room.billed + record.billedBytes, cache.capacity⟩ := by
      unfold MembershipCache.insert
      simp only [hsame, hroom, hcap, hfits]
      rw [if_neg (by omega), if_neg (by omega)]
    have hothers : ∀ k ∈ room.order, k ∈ cache.order.erase key :=
      fun k hk => by rw [hsplit]; exact mem_append_right _ hk
    have hfresh : key ∉ room.order := fun hmem => hcounted.nodup.not_mem_erase (hothers key hmem)
    rw [hinsert]
    refine ⟨⟨hcount.insert hfresh record, rfl, hspace⟩, victims, room.order, hsplit, .inr rfl, fun k hk => ?_⟩
    have hne : k ≠ key := fun heq => hfresh (heq ▸ hk)
    calc Function.update room.map key (some record) k = room.map k := Function.update_of_ne hne _ _
      _ = (cache.remove key).map k := hkept k hk
      _ = cache.map k := hkeeps k (hothers k hk)
  · have hinsert : cache.insert key record = cache.remove key := by
      unfold MembershipCache.insert
      simp only [hsame]
      rw [if_pos (by omega)]
    rw [hinsert]
    exact ⟨⟨hremoved, hsame, hless.trans hwithin⟩, [], _, rfl, .inl horder, hkeeps⟩

theorem get_spec {cache : MembershipCache} (h : Counted cache.order cache.map cache.billed) (key : CacheKey) :
    ((cache.get key).1 = cache ∧ key ∉ cache.order) ∨
      (key ∈ cache.order ∧ (cache.get key).1 = { cache with order := cache.order.erase key ++ [key] }) := by
  cases hmap : cache.map key with
  | none =>
    refine .inl ⟨by rw [MembershipCache.get, hmap], ?_⟩
    rw [h.present, hmap]
    exact Bool.false_ne_true
  | some record =>
    have hkey : key ∈ cache.order := by rw [h.present, hmap]; rfl
    refine .inr ⟨hkey, ?_⟩
    rw [MembershipCache.get, hmap]
    simp only [if_pos hkey]

/-- **One operation keeps the account.** -/
theorem accounted_apply {capacity : ℕ} {cache : MembershipCache} (h : Accounted capacity cache) {op : CacheOp}
    (hmemory : Addressable cache op) : Accounted capacity (op.apply cache) := by
  cases op with
  | get key =>
    rcases get_spec h.counted key with ⟨hsame, -⟩ | ⟨hkey, hmoved⟩
    · rw [CacheOp.apply, hsame]
      exact h
    · rw [CacheOp.apply, hmoved]
      have hperm : (cache.order.erase key ++ [key]).Perm cache.order :=
        (perm_append_comm.trans (perm_cons_erase hkey).symm)
      refine ⟨⟨hperm.nodup_iff.mpr h.counted.nodup, fun k => ?_, ?_⟩, h.sized, h.within⟩
      · rw [hperm.mem_iff]
        exact h.counted.present k
      · rw [billedSum_perm hperm]
        exact h.counted.billed
  | insert key record => exact (insert_spec h hmemory).1
  | clear => exact ⟨⟨nodup_nil, fun _ => by simp [CacheOp.apply, MembershipCache.clear], rfl⟩, h.sized, Nat.zero_le _⟩

/-- One operation keeps the queue in the order of last use. -/
theorem byUse_apply {capacity : ℕ} {cache : MembershipCache} {ops : List CacheOp} (h : Accounted capacity cache)
    (hqueue : Recency.ByUse CacheOp.uses ops cache.order) {op : CacheOp} (hmemory : Addressable cache op) :
    Recency.ByUse CacheOp.uses (ops ++ [op]) (op.apply cache).order := by
  have hother {key k : CacheKey} {keys : List CacheKey} (hkey : key ∉ keys) (hk : k ∈ keys) : key ≠ k :=
    fun heq => hkey (heq ▸ hk)
  have herase (key : CacheKey) : key ∉ cache.order.erase key := h.counted.nodup.not_mem_erase
  cases op with
  | get key =>
    rcases get_spec h.counted key with ⟨hsame, hkey⟩ | ⟨hkey, hmoved⟩
    · rw [CacheOp.apply, hsame]
      exact Recency.byUse_idle hqueue fun k hk => decide_eq_false (hother hkey hk)
    · rw [CacheOp.apply, hmoved]
      exact Recency.byUse_touch (hqueue.sublist erase_sublist) (fun k hk => decide_eq_false (hother (herase key) hk))
        (decide_eq_true rfl)
  | insert key record =>
    obtain ⟨-, victims, kept, hsplit, horder, -⟩ := insert_spec h hmemory
    have hsub : kept.Sublist (cache.order.erase key) := by rw [hsplit]; exact sublist_append_right _ _
    have hkept := hqueue.sublist (hsub.trans erase_sublist)
    have hidle : ∀ k ∈ kept, CacheOp.uses (.insert key record) k = false :=
      fun k hk => decide_eq_false (hother (herase key) (hsub.subset hk))
    rcases horder with horder | horder
    · rw [CacheOp.apply, horder]
      exact Recency.byUse_idle hkept hidle
    · rw [CacheOp.apply, horder]
      exact Recency.byUse_touch hkept hidle (decide_eq_true rfl)
  | clear => exact Pairwise.nil

/-! ### Runs -/

/-- The cache after the operations. -/
def cacheAfter (capacity : ℕ) (ops : List CacheOp) : MembershipCache :=
  Run.run CacheOp.apply (.withCapacity capacity) ops

/-- Every record that is inserted fits the memory, beside those that are held then. -/
def InMemory (capacity : ℕ) (ops : List CacheOp) : Prop :=
  Run.Meets CacheOp.apply Addressable (.withCapacity capacity) ops

theorem accounted_cacheAfter {capacity : ℕ} {ops : List CacheOp} (hmemory : InMemory capacity ops) :
    Accounted capacity (cacheAfter capacity ops) ∧
      Recency.ByUse CacheOp.uses ops (cacheAfter capacity ops).order := by
  induction ops using List.reverseRecOn with
  | nil => exact ⟨⟨⟨nodup_nil, fun _ => by simp [cacheAfter, MembershipCache.withCapacity], rfl⟩, rfl, Nat.zero_le _⟩, .nil⟩
  | append_singleton ops op ih =>
    have hstep : cacheAfter capacity (ops ++ [op]) = op.apply (cacheAfter capacity ops) := Run.run_concat _ _ _ _
    obtain ⟨hbefore, hop, -⟩ := Run.meets_append.mp hmemory
    rw [hstep]
    exact ⟨accounted_apply (ih hbefore).1 hop, byUse_apply (ih hbefore).1 (ih hbefore).2 hop⟩

/-- An insert of the key evicts the least recently used of the other keys: listed by their last use, a front part of
them goes and the others keep their records. -/
def EvictsOldest (ops : List CacheOp) (key : CacheKey) (before after : MembershipCache) : Prop :=
  ∃ victims kept, before.order.erase key = victims ++ kept ∧ Recency.ByUse CacheOp.uses ops (victims ++ kept) ∧
    (∀ k ∈ victims, after.map k = none) ∧ ∀ k ∈ kept, after.map k = before.map k

theorem evictsOldest_insert {capacity : ℕ} {ops : List CacheOp} (hmemory : InMemory capacity ops) {key : CacheKey}
    {record : MembershipRecord} (hinsert : Addressable (cacheAfter capacity ops) (.insert key record)) :
    EvictsOldest ops key (cacheAfter capacity ops) ((cacheAfter capacity ops).insert key record) := by
  obtain ⟨haccount, hqueue⟩ := accounted_cacheAfter hmemory
  obtain ⟨hafter, victims, kept, hsplit, horder, hkept⟩ := insert_spec haccount hinsert
  have hnodup : (victims ++ kept).Nodup := hsplit ▸ haccount.counted.nodup.erase key
  refine ⟨victims, kept, hsplit, ?_, fun k hk => ?_, hkept⟩
  · rw [← hsplit]
    exact hqueue.sublist erase_sublist
  · have hgone : k ∉ kept := fun hmem => (nodup_append.mp hnodup).2.2 k hk k hmem rfl
    have hother : k ≠ key := by
      have hmem : k ∈ (cacheAfter capacity ops).order.erase key := by rw [hsplit]; exact mem_append_left _ hk
      exact (haccount.counted.nodup.mem_erase_iff.mp hmem).1
    have habsent : k ∉ ((cacheAfter capacity ops).insert key record).order := by
      rcases horder with horder | horder <;> rw [horder]
      · exact hgone
      · rw [mem_append, mem_singleton, not_or]
        exact ⟨hgone, hother⟩
    rw [hafter.counted.present, Option.not_isSome_iff_eq_none] at habsent
    exact habsent

/-- **The account of a cache**, after any operations: the billed bytes are the sum of the billed sizes of the present
records and within the capacity, the queue holds exactly the present keys, each once, and what an insert evicts was
used least recently. -/
theorem cache_accounting (capacity : ℕ) (ops : List CacheOp) (hmemory : InMemory capacity ops) :
    let cache := cacheAfter capacity ops
    cache.billed = billedSum cache.map cache.order ∧ cache.billed ≤ capacity ∧ cache.order.Nodup ∧
      (∀ key, key ∈ cache.order ↔ (cache.map key).isSome) ∧
      ∀ key record, Addressable cache (.insert key record) → EvictsOldest ops key cache (cache.insert key record) := by
  obtain ⟨⟨⟨hnodup, hpresent, hbilled⟩, -, hwithin⟩, -⟩ := accounted_cacheAfter hmemory
  exact ⟨hbilled, hwithin, hnodup, hpresent, fun _ _ hinsert => evictsOldest_insert hmemory hinsert⟩

/-- A record of one chunk, billed at 361 bytes. -/
def singleChunk : MembershipRecord := ⟨[(['h'], 1)], none⟩

/-- The third record takes the place of the second, since the first was used after it. -/
def threeRecords : List CacheOp := [.insert ([], ['a']) singleChunk, .insert ([], ['b']) singleChunk, .get ([], ['a']),
  .insert ([], ['c']) singleChunk]

theorem cache_accounting_sample :
    let cache := cacheAfter 800 threeRecords
    cache.order = [([], ['a']), ([], ['c'])] ∧
    cache.billed = billedSum cache.map cache.order ∧ cache.billed ≤ 800 ∧ cache.order.Nodup ∧
      (∀ key, key ∈ cache.order ↔ (cache.map key).isSome) ∧
      ∀ key record, Addressable cache (.insert key record) →
        EvictsOldest threeRecords key cache (cache.insert key record) :=
  ⟨by decide, cache_accounting 800 threeRecords
    ⟨by unfold Addressable; decide, by unfold Addressable; decide, trivial, by unfold Addressable; decide, trivial⟩⟩

end Media
end Mega

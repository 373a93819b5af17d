import Mathlib.Tactic.Common
import Mathlib.Logic.Function.Basic
import Mathlib.Data.List.Nodup
import Mathlib.Data.List.Perm.Subperm
import Mathlib.Data.List.Forall2
import Nimloth.Runs
import Nimloth.Block

/-!
# The block cache

`components/src/micro_fs/block_cache.rs`. The manager keeps up to 16
blocks in a queue; a lookup hands out a shared handle, and an entry is
evicted only while the queue holds the one reference to it. A block that
was modified is written back when it is synchronised or dropped.

Cache objects live in a heap (`cells`), so that a handle and a queue
entry can share one. The devices are a parameter: a device is a name and
the map from block ids to contents it stores, and reading a block gives
what was written last. `CacheStep` is any sequence of lookups, accesses
through a handle, drops and synchronisations by any number of users.

`FlatStep` is what the cache stands for: one array of blocks for each
device, with the same handles and the same observations. `Shadows`
relates the two. The manager looks a block up by its id alone, so the
relation is kept by a lookup only if no cached block of that id belongs
to another device (`Unaliased`).
-/

namespace Nimloth

def BLOCK_CACHE_SIZE : Nat := 16

variable {D : Type}

/-- `BlockCache`. -/
structure BlockCache (D : Type) where
  cache : Block
  blockId : Nat
  blockDevice : D
  modified : Bool

/-- The devices, the manager's queue, the heap of cache objects and the
handles in use. -/
structure CacheSys (D : Type) where
  dev : D → Nat → Block
  queue : List (Nat × Nat)
  cells : Nat → Option (BlockCache D)
  next : Nat
  handles : List Nat

namespace CacheSys

def init (dev : D → Nat → Block) : CacheSys D where
  dev := dev
  queue := []
  cells := fun _ => none
  next := 0
  handles := []

/-- `Arc::strong_count` of a cache object. -/
def strongCount (s : CacheSys D) (a : Nat) : Nat :=
  (s.queue.map Prod.snd).count a + s.handles.count a

/-- `BlockDevice::write_block`. -/
def writeBlock [DecidableEq D] (dev : D → Nat → Block) (d : D) (blockId : Nat) (b : Block) :
    D → Nat → Block :=
  Function.update dev d (Function.update (dev d) blockId b)

/-- `BlockCache::sync`. -/
def sync [DecidableEq D] (s : CacheSys D) (a : Nat) : CacheSys D :=
  match s.cells a with
  | none => s
  | some c =>
      if c.modified then
        { s with
          dev := writeBlock s.dev c.blockDevice c.blockId c.cache
          cells := Function.update s.cells a (some { c with modified := false }) }
      else s

/-- The last reference goes: `Drop for BlockCache`. -/
def free [DecidableEq D] (s : CacheSys D) (a : Nat) : CacheSys D :=
  { s.sync a with cells := Function.update (s.sync a).cells a none }

/-- Removal of the first entry that only the queue refers to; `none` is the
panic. -/
def evict [DecidableEq D] (s : CacheSys D) : Option (CacheSys D) :=
  let unshared := fun e : Nat × Nat => s.strongCount e.2 == 1
  (s.queue.find? unshared).map fun e => ({ s with queue := s.queue.erase e } : CacheSys D).free e.2

/-- `BlockCache::new` for a block that is not cached, put at the end of the
queue. -/
def load (s : CacheSys D) (blockId : Nat) (d : D) : Nat × CacheSys D :=
  (s.next, { s with
    queue := s.queue ++ [(blockId, s.next)]
    cells := Function.update s.cells s.next (some ⟨s.dev d blockId, blockId, d, false⟩)
    next := s.next + 1
    handles := s.next :: s.handles })

/-- `block_cache`: the new handle is the first of the list. -/
def blockCache [DecidableEq D] (s : CacheSys D) (blockId : Nat) (d : D) : Option (Nat × CacheSys D) :=
  match s.queue.find? (·.1 == blockId) with
  | some e => some (e.2, { s with handles := e.2 :: s.handles })
  | none =>
      if s.queue.length = BLOCK_CACHE_SIZE then s.evict.map fun s => s.load blockId d
      else some (s.load blockId d)

/-- Write access through a handle: `mut_at` marks the block as modified. -/
def store (s : CacheSys D) (a : Nat) (b : Block) : CacheSys D :=
  let stored := (s.cells a).map fun c => { c with cache := b, modified := true }
  { s with cells := Function.update s.cells a stored }

/-- A handle is dropped. -/
def release [DecidableEq D] (s : CacheSys D) (i : Nat) : CacheSys D :=
  match s.handles[i]? with
  | none => s
  | some a =>
      let s := { s with handles := s.handles.eraseIdx i }
      if s.strongCount a = 0 then s.free a else s

/-- `block_cache_sync_all`. -/
def syncAll [DecidableEq D] (s : CacheSys D) : CacheSys D := s.queue.foldl (fun s e => s.sync e.2) s

theorem sync_handles [DecidableEq D] (s : CacheSys D) (a : Nat) : (s.sync a).handles = s.handles := by
  unfold sync
  split
  · rfl
  · split <;> rfl

theorem blockCache_handles [DecidableEq D] {s s' : CacheSys D} {blockId a : Nat} {d : D}
    (h : s.blockCache blockId d = some (a, s')) : s'.handles = a :: s.handles := by
  unfold blockCache at h
  split at h
  · cases h
    rfl
  · split at h
    · obtain ⟨s₁, hs₁, heq⟩ := Option.map_eq_some_iff.mp h
      obtain ⟨e, -, rfl⟩ := Option.map_eq_some_iff.mp hs₁
      cases heq
      simp only [free, sync_handles]
    · cases h
      rfl

theorem syncAll_handles [DecidableEq D] (s : CacheSys D) : s.syncAll.handles = s.handles := by
  unfold syncAll
  generalize s.queue = es
  induction es generalizing s with
  | nil => rfl
  | cons e es ih =>
      rw [List.foldl_cons, ih, sync_handles]

end CacheSys

/-! ## Steps -/

/-- What a user of the cache does and sees; handles are named by their
position in the list of handles. -/
inductive CacheEvent (D : Type) where
  | lookup (blockId : Nat) (d : D)
  | read (i : Nat) (b : Block)
  | modify (i : Nat) (f : Block → Block)
  | drop (i : Nat)
  | syncAll

inductive CacheStep [DecidableEq D] : CacheSys D → CacheEvent D → CacheSys D → Prop
  | lookup {s s' : CacheSys D} {blockId a : Nat} {d : D}
      (h : s.blockCache blockId d = some (a, s')) : CacheStep s (.lookup blockId d) s'
  | read {s : CacheSys D} {i a : Nat} {c : BlockCache D} (hi : s.handles[i]? = some a)
      (hc : s.cells a = some c) : CacheStep s (.read i c.cache) s
  | modify {s : CacheSys D} {i a : Nat} {c : BlockCache D} (f : Block → Block)
      (hi : s.handles[i]? = some a) (hc : s.cells a = some c) :
      CacheStep s (.modify i f) (s.store a (f c.cache))
  | drop {s : CacheSys D} {i : Nat} (hi : i < s.handles.length) :
      CacheStep s (.drop i) (s.release i)
  | syncAll {s : CacheSys D} : CacheStep s .syncAll s.syncAll

/-- One array of blocks for each device; a handle is a device and a block
id. -/
structure FlatSys (D : Type) where
  content : D → Nat → Block
  handles : List (D × Nat)

inductive FlatStep [DecidableEq D] : FlatSys D → CacheEvent D → FlatSys D → Prop
  | lookup (t : FlatSys D) (blockId : Nat) (d : D) :
      FlatStep t (.lookup blockId d) { t with handles := (d, blockId) :: t.handles }
  | read {t : FlatSys D} {i blockId : Nat} {d : D} (hi : t.handles[i]? = some (d, blockId)) :
      FlatStep t (.read i (t.content d blockId)) t
  | modify {t : FlatSys D} {i blockId : Nat} {d : D} (f : Block → Block)
      (hi : t.handles[i]? = some (d, blockId)) :
      FlatStep t (.modify i f) { t with
        content := CacheSys.writeBlock t.content d blockId (f (t.content d blockId)) }
  | drop {t : FlatSys D} {i : Nat} (hi : i < t.handles.length) :
      FlatStep t (.drop i) { t with handles := t.handles.eraseIdx i }
  | syncAll (t : FlatSys D) : FlatStep t .syncAll t

theorem FlatStep.read_inv [DecidableEq D] {t t' : FlatSys D} {i : Nat} {b : Block}
    (h : FlatStep t (.read i b) t') :
    ∃ d blockId, t.handles[i]? = some (d, blockId) ∧ b = t.content d blockId := by
  generalize he : CacheEvent.read i b = e at h
  cases h with
  | read hi =>
      cases he
      exact ⟨_, _, hi, rfl⟩
  | lookup => cases he
  | modify => cases he
  | drop => cases he
  | syncAll => cases he

/-- The arrays after a step depend on the event alone. -/
theorem FlatStep.deterministic [DecidableEq D] {t t₁ t₂ : FlatSys D} {e e' : CacheEvent D}
    (h₁ : FlatStep t e t₁) (h₂ : FlatStep t e' t₂) (he : e = e') : t₁ = t₂ := by
  cases h₁ with
  | lookup =>
      cases h₂ with
      | lookup =>
          cases he
          rfl
      | _ => cases he
  | read =>
      cases h₂ with
      | read => rfl
      | _ => cases he
  | modify f hi₁ =>
      cases h₂ with
      | modify f' hi₂ =>
          cases he
          rw [hi₁] at hi₂
          cases hi₂
          rfl
      | _ => cases he
  | drop =>
      cases h₂ with
      | drop =>
          cases he
          rfl
      | _ => cases he
  | syncAll =>
      cases h₂ with
      | syncAll => rfl
      | _ => cases he

/-! ## The relation between the two -/

/-- The cache `s` holds, together with its devices, the contents of `t`: a
cached block is what its array has, and a device block is too unless a
modified copy of it is cached. -/
structure Shadows (s : CacheSys D) (t : FlatSys D) : Prop where
  len : s.queue.length ≤ BLOCK_CACHE_SIZE
  ids : (s.queue.map Prod.fst).Nodup
  addrs : (s.queue.map Prod.snd).Nodup
  cell : ∀ e ∈ s.queue, ∃ c, s.cells e.2 = some c ∧ c.blockId = e.1
  fresh : ∀ e ∈ s.queue, e.2 < s.next
  cached : ∀ e ∈ s.queue, ∀ c, s.cells e.2 = some c → t.content c.blockDevice e.1 = c.cache
  device : ∀ d blockId, s.dev d blockId = t.content d blockId
    ∨ ∃ e ∈ s.queue, ∃ c, s.cells e.2 = some c ∧ e.1 = blockId ∧ c.blockDevice = d
      ∧ c.modified = true
  handles : List.Forall₂ (fun a (h : D × Nat) => (h.2, a) ∈ s.queue
    ∧ ∃ c, s.cells a = some c ∧ c.blockDevice = h.1) s.handles t.handles

namespace Shadows

variable {s : CacheSys D} {t : FlatSys D}

theorem init (dev : D → Nat → Block) : Shadows (CacheSys.init dev) ⟨dev, []⟩ where
  len := Nat.zero_le _
  ids := List.nodup_nil
  addrs := List.nodup_nil
  cell e he := by cases he
  fresh e he := by cases he
  cached e he := by cases he
  device _ _ := .inl rfl
  handles := .nil

theorem addr_inj (h : Shadows s t) {e e' : Nat × Nat} (he : e ∈ s.queue) (he' : e' ∈ s.queue)
    (heq : e.2 = e'.2) : e = e' :=
  List.inj_on_of_nodup_map h.addrs he he' heq

theorem id_inj (h : Shadows s t) {e e' : Nat × Nat} (he : e ∈ s.queue) (he' : e' ∈ s.queue)
    (heq : e.1 = e'.1) : e = e' :=
  List.inj_on_of_nodup_map h.ids he he' heq

/-- With every cached block clean the devices hold the contents. -/
theorem device_of_clean (h : Shadows s t)
    (hclean : ∀ e ∈ s.queue, ∀ c, s.cells e.2 = some c → c.modified = false) (d : D)
    (blockId : Nat) : s.dev d blockId = t.content d blockId := by
  rcases h.device d blockId with hdev | ⟨e, he, c, hc, -, -, hm⟩
  · exact hdev
  · rw [hclean e he c hc] at hm
    cases hm

/-- A block that is not cached is read from its device. -/
theorem load (h : Shadows s t) {blockId : Nat} (d : D) (hroom : s.queue.length < BLOCK_CACHE_SIZE)
    (hnew : ∀ e ∈ s.queue, e.1 ≠ blockId) :
    Shadows (s.load blockId d).2 { t with handles := (d, blockId) :: t.handles } := by
  have hne : ∀ e ∈ s.queue, e.2 ≠ s.next := fun e he => Nat.ne_of_lt (h.fresh e he)
  have hcell : ∀ e ∈ s.queue, (s.load blockId d).2.cells e.2 = s.cells e.2 := fun e he =>
    Function.update_of_ne (hne e he) ..
  have hself : (s.load blockId d).2.cells s.next
      = some ⟨s.dev d blockId, blockId, d, false⟩ := Function.update_self ..
  have hmem : ∀ e, e ∈ (s.load blockId d).2.queue ↔ e ∈ s.queue ∨ e = (blockId, s.next) := by
    intro e
    simp [CacheSys.load]
  refine ⟨?_, ?_, ?_, fun e he => ?_, fun e he => ?_, fun e he c hc => ?_, fun d' blockId' => ?_,
    .cons ?_ ?_⟩
  · simp only [CacheSys.load, List.length_append, List.length_singleton]
    omega
  · simp only [CacheSys.load, List.map_append, List.map_cons, List.map_nil]
    refine List.nodup_append.mpr ⟨h.ids, by simp, fun x hx y hy => ?_⟩
    obtain ⟨e, he, rfl⟩ := List.mem_map.mp hx
    rw [List.mem_singleton.mp hy]
    exact hnew e he
  · simp only [CacheSys.load, List.map_append, List.map_cons, List.map_nil]
    refine List.nodup_append.mpr ⟨h.addrs, by simp, fun x hx y hy => ?_⟩
    obtain ⟨e, he, rfl⟩ := List.mem_map.mp hx
    rw [List.mem_singleton.mp hy]
    exact hne e he
  · rcases (hmem e).mp he with he | rfl
    · rw [hcell e he]
      exact h.cell e he
    · exact ⟨_, hself, rfl⟩
  · rcases (hmem e).mp he with he | rfl
    · exact Nat.lt_succ_of_lt (h.fresh e he)
    · exact Nat.lt_succ_self _
  · rcases (hmem e).mp he with he | rfl
    · rw [hcell e he] at hc
      exact h.cached e he c hc
    · rw [hself] at hc
      cases hc
      rcases h.device d blockId with hdev | ⟨e, he, -, -, heq, -⟩
      · exact hdev.symm
      · exact absurd heq (hnew e he)
  · rcases h.device d' blockId' with hdev | ⟨e, he, c, hc, hrest⟩
    · exact .inl hdev
    · exact .inr ⟨e, (hmem e).mpr (.inl he), c, (hcell e he).trans hc, hrest⟩
  · exact ⟨(hmem _).mpr (.inr rfl), _, hself, rfl⟩
  · refine h.handles.imp fun a ht hrel => ⟨(hmem _).mpr (.inl hrel.1), ?_⟩
    obtain ⟨c, hc, hdev⟩ := hrel.2
    exact ⟨c, (hcell _ hrel.1).trans hc, hdev⟩

theorem handle (h : Shadows s t) {i a : Nat} (hi : s.handles[i]? = some a) :
    ∃ ht, t.handles[i]? = some ht ∧ (ht.2, a) ∈ s.queue
      ∧ ∃ c, s.cells a = some c ∧ c.blockDevice = ht.1 := by
  obtain ⟨hlt, rfl⟩ := List.getElem?_eq_some_iff.mp hi
  have hlt' : i < t.handles.length := h.handles.length_eq ▸ hlt
  exact ⟨t.handles[i], List.getElem?_eq_getElem hlt', h.handles.get hlt hlt'⟩

/-- The object of a handle on the arrays. -/
theorem handle_of (h : Shadows s t) {i blockId : Nat} {d : D}
    (hi : t.handles[i]? = some (d, blockId)) :
    ∃ a c, s.handles[i]? = some a ∧ (blockId, a) ∈ s.queue ∧ s.cells a = some c
      ∧ c.blockDevice = d ∧ t.content d blockId = c.cache := by
  obtain ⟨hlt, -⟩ := List.getElem?_eq_some_iff.mp hi
  have hget := List.getElem?_eq_getElem (h.handles.length_eq.symm ▸ hlt)
  obtain ⟨ht, hti, hq, c, hc, hdev⟩ := h.handle hget
  rw [hi] at hti
  cases hti
  refine ⟨_, c, hget, hq, hc, hdev, ?_⟩
  rw [← h.cached _ hq c hc, hdev]

/-! ### Synchronisation -/

variable [DecidableEq D]

theorem sync_clean {a : Nat} {c : BlockCache D} (hc : s.cells a = some c)
    (hm : c.modified = false) : s.sync a = s := by
  unfold CacheSys.sync
  rw [hc]
  simp [hm]

theorem sync_dirty {a : Nat} {c : BlockCache D} (hc : s.cells a = some c)
    (hm : c.modified = true) : s.sync a = { s with
      dev := CacheSys.writeBlock s.dev c.blockDevice c.blockId c.cache
      cells := Function.update s.cells a (some { c with modified := false }) } := by
  unfold CacheSys.sync
  rw [hc]
  simp [hm]

theorem writeBlock_apply (dev : D → Nat → Block) (d d' : D) (blockId blockId' : Nat) (b : Block) :
    CacheSys.writeBlock dev d blockId b d' blockId'
      = if d' = d ∧ blockId' = blockId then b else dev d' blockId' := by
  unfold CacheSys.writeBlock
  rcases eq_or_ne d' d with rfl | hd
  · rcases eq_or_ne blockId' blockId with rfl | hb
    · simp
    · simp [hb]
  · simp [hd]

@[simp] theorem sync_queue (a : Nat) : (s.sync a).queue = s.queue := by
  unfold CacheSys.sync
  split
  · rfl
  · split <;> rfl

/-- Synchronising a queue entry changes no content and leaves the entry
clean. -/
theorem sync (h : Shadows s t) {e : Nat × Nat} (he : e ∈ s.queue) :
    Shadows (s.sync e.2) t
      ∧ (∃ c, (s.sync e.2).cells e.2 = some c ∧ c.modified = false)
      ∧ (∀ a, a ≠ e.2 → (s.sync e.2).cells a = s.cells a)
      ∧ (s.sync e.2).handles = s.handles := by
  obtain ⟨c, hc, hid⟩ := h.cell e he
  cases hm : c.modified with
  | false =>
      rw [sync_clean hc hm]
      exact ⟨h, ⟨c, hc, hm⟩, fun _ _ => rfl, rfl⟩
  | true =>
      rw [sync_dirty hc hm]
      have hcell : ∀ a c', Function.update s.cells e.2 (some { c with modified := false }) a
          = some c' → ∃ c'', s.cells a = some c'' ∧ c'.blockId = c''.blockId
            ∧ c'.blockDevice = c''.blockDevice ∧ c'.cache = c''.cache := by
        intro a c' hc'
        rcases eq_or_ne a e.2 with rfl | ha
        · rw [Function.update_self] at hc'
          cases hc'
          exact ⟨c, hc, rfl, rfl, rfl⟩
        · rw [Function.update_of_ne ha] at hc'
          exact ⟨c', hc', rfl, rfl, rfl⟩
      refine ⟨⟨h.len, h.ids, h.addrs, fun e' he' => ?_, h.fresh, fun e' he' c' hc' => ?_,
        fun d blockId => ?_, ?_⟩, ⟨_, Function.update_self .., rfl⟩,
        fun a ha => Function.update_of_ne ha .., rfl⟩
      · obtain ⟨c', hc', hid'⟩ := h.cell e' he'
        rcases eq_or_ne e'.2 e.2 with heq | hne
        · rw [heq] at hc' ⊢
          rw [hc] at hc'
          cases hc'
          exact ⟨_, Function.update_self .., hid'⟩
        · exact ⟨c', by simpa [hne] using hc', hid'⟩
      · obtain ⟨c'', hc'', -, hdev, hcache⟩ := hcell _ _ hc'
        rw [hdev, hcache]
        exact h.cached e' he' c'' hc''
      · show CacheSys.writeBlock s.dev c.blockDevice c.blockId c.cache d blockId = _ ∨ _
        rw [writeBlock_apply]
        split
        · next heq =>
            obtain ⟨rfl, rfl⟩ := heq
            rw [hid]
            exact .inl (h.cached e he c hc).symm
        · next hne =>
            rcases h.device d blockId with hdev | ⟨e', he', c', hc', rfl, rfl, hm'⟩
            · exact .inl hdev
            · refine .inr ⟨e', he', c', ?_, rfl, rfl, hm'⟩
              have haddr : e'.2 ≠ e.2 := by
                intro heq
                rw [heq, hc] at hc'
                cases hc'
                exact hne ⟨rfl, by rw [h.addr_inj he' he heq, hid]⟩
              simpa [haddr] using hc'
      · refine h.handles.imp fun a ht hrel => ⟨hrel.1, ?_⟩
        obtain ⟨c', hc', hdev⟩ := hrel.2
        rcases eq_or_ne a e.2 with rfl | hne
        · rw [hc] at hc'
          cases hc'
          exact ⟨_, Function.update_self .., hdev⟩
        · exact ⟨c', by simpa [hne] using hc', hdev⟩

/-- The loop of `block_cache_sync_all` over a part of the queue. -/
theorem sync_foldl (es : List (Nat × Nat)) (h : Shadows s t) (hes : ∀ e ∈ es, e ∈ s.queue) :
    Shadows (es.foldl (fun s e => s.sync e.2) s) t
      ∧ (es.foldl (fun s e => s.sync e.2) s).queue = s.queue
      ∧ (es.foldl (fun s e => s.sync e.2) s).handles = s.handles
      ∧ ∀ e ∈ s.queue, (e ∈ es ∨ ∀ c, s.cells e.2 = some c → c.modified = false) →
        ∀ c, (es.foldl (fun s e => s.sync e.2) s).cells e.2 = some c → c.modified = false := by
  induction es generalizing s with
  | nil =>
      refine ⟨h, rfl, rfl, fun e _ hor c hc => ?_⟩
      exact (hor.resolve_left (List.not_mem_nil)) c hc
  | cons x xs ih =>
      obtain ⟨hx, ⟨cx, hcx, hmx⟩, hother, hhandles⟩ := h.sync (hes x List.mem_cons_self)
      obtain ⟨h1, h2, h3, h4⟩ := ih hx fun e he => by
        rw [sync_queue]
        exact hes e (List.mem_cons_of_mem _ he)
      refine ⟨h1, h2.trans (sync_queue _), h3.trans hhandles, fun e he hor c hc => ?_⟩
      refine h4 e (by rwa [sync_queue]) ?_ c hc
      by_cases hex : e.2 = x.2
      · refine .inr fun c' hc' => ?_
        rw [hex, hcx] at hc'
        cases hc'
        exact hmx
      · refine hor.imp (fun hm => ?_) fun hc' c' => ?_
        · rcases List.mem_cons.mp hm with rfl | hm
          · exact absurd rfl hex
          · exact hm
        · rw [hother _ hex]
          exact hc' c'

theorem syncAll_clean (h : Shadows s t) :
    ∀ e ∈ s.syncAll.queue, ∀ c, s.syncAll.cells e.2 = some c → c.modified = false := by
  obtain ⟨-, h2, -, h4⟩ := h.sync_foldl s.queue fun _ he => he
  intro e he
  have he' : e ∈ s.queue := h2 ▸ he
  exact h4 e he' (.inl he')

theorem syncAll (h : Shadows s t) :
    Shadows s.syncAll t ∧ ∀ d blockId, s.syncAll.dev d blockId = t.content d blockId := by
  have h1 : Shadows s.syncAll t := (h.sync_foldl s.queue fun _ he => he).1
  exact ⟨h1, h1.device_of_clean h.syncAll_clean⟩

/-! ### Lookups -/

theorem sync_with_queue (q : List (Nat × Nat)) (a : Nat) :
    ({ s with queue := q } : CacheSys D).sync a = { s.sync a with queue := q } := by
  unfold CacheSys.sync
  dsimp only
  split
  · rfl
  · split <;> rfl

/-- Only the queue refers to an entry that is evicted, so no handle is to it. -/
theorem evict (h : Shadows s t) {s' : CacheSys D} (hs : s.evict = some s') :
    Shadows s' t ∧ s'.queue.length + 1 = s.queue.length ∧ s'.handles = s.handles
      ∧ ∀ e ∈ s'.queue, e ∈ s.queue := by
  obtain ⟨e, hfind, rfl⟩ := Option.map_eq_some_iff.mp hs
  have he := List.mem_of_find?_eq_some hfind
  have hunshared : s.strongCount e.2 = 1 := by simpa using List.find?_some hfind
  have hnot : e.2 ∉ s.handles := by
    intro hm
    have h1 : 0 < s.handles.count e.2 := List.count_pos_iff.mpr hm
    have h2 : 0 < (s.queue.map Prod.snd).count e.2 :=
      List.count_pos_iff.mpr (List.mem_map_of_mem he)
    unfold CacheSys.strongCount at hunshared
    omega
  have hnodup : s.queue.Nodup := h.ids.of_map _
  obtain ⟨hsync, ⟨c, hc, hm⟩, hother, hhandles⟩ := h.sync he
  have hmem : ∀ e', e' ∈ s.queue.erase e ↔ e' ≠ e ∧ e' ∈ s.queue := fun e' =>
    hnodup.mem_erase_iff
  have haddr : ∀ e' ∈ s.queue.erase e, e'.2 ≠ e.2 := by
    intro e' he' heq
    obtain ⟨hne, he''⟩ := (hmem e').mp he'
    exact hne (h.addr_inj he'' he heq)
  unfold CacheSys.free
  rw [sync_with_queue]
  dsimp only
  refine ⟨?_, ?_, hhandles, fun e' he' => ((hmem e').mp he').2⟩
  · have hsub : (s.queue.erase e).Sublist s.queue := List.erase_sublist
    refine ⟨hsub.length_le.trans h.len, h.ids.sublist (hsub.map _), h.addrs.sublist (hsub.map _),
      fun e' he' => ?_, fun e' he' => ?_, fun e' he' c' hc' => ?_, fun d blockId => ?_, ?_⟩
    · obtain ⟨c', hc', hid⟩ := hsync.cell e' (by simpa using ((hmem e').mp he').2)
      exact ⟨c', by simpa [haddr e' he'] using hc', hid⟩
    · exact hsync.fresh e' (by simpa using ((hmem e').mp he').2)
    · replace hc' : (s.sync e.2).cells e'.2 = some c' := by simpa [haddr e' he'] using hc'
      exact hsync.cached e' (by simpa using ((hmem e').mp he').2) c' hc'
    · rcases hsync.device d blockId with hdev | ⟨e', he', c', hc', rfl, rfl, hm'⟩
      · exact .inl hdev
      · have hne : e' ≠ e := by
          rintro rfl
          rw [hc] at hc'
          cases hc'
          rw [hm] at hm'
          cases hm'
        have hin : e' ∈ s.queue.erase e := (hmem e').mpr ⟨hne, by simpa using he'⟩
        exact .inr ⟨e', hin, c', by simpa [haddr e' hin] using hc', rfl, rfl, hm'⟩
    · show List.Forall₂ _ (s.sync e.2).handles _
      refine List.forall₂_iff_get.mpr ⟨hsync.handles.length_eq, fun i h1 h2 => ?_⟩
      obtain ⟨hq, c', hc', hdev⟩ := hsync.handles.get h1 h2
      have hne : (s.sync e.2).handles.get ⟨i, h1⟩ ≠ e.2 := by
        intro heq
        apply hnot
        rw [← heq, ← hhandles]
        exact List.get_mem _ _
      have hq' : ((t.handles.get ⟨i, h2⟩).2, (s.sync e.2).handles.get ⟨i, h1⟩) ∈ s.queue := by
        simpa using hq
      refine ⟨(hmem _).mpr ⟨fun heq => hne (congrArg Prod.snd heq), hq'⟩, c', ?_, hdev⟩
      exact (Function.update_of_ne hne ..).trans hc'
  · have := List.length_erase_of_mem he
    have hpos := List.length_pos_of_mem he
    omega

/-- With fewer than 16 handles some entry of a full queue can go. -/
theorem evict_isSome (h : Shadows s t) (hfull : s.queue.length = BLOCK_CACHE_SIZE)
    (hfew : s.handles.length < BLOCK_CACHE_SIZE) : s.evict.isSome = true := by
  by_contra hnone
  have hfind : s.queue.find? (fun e => s.strongCount e.2 == 1) = none := by
    simpa [CacheSys.evict] using hnone
  have hshared : ∀ a ∈ s.queue.map Prod.snd, a ∈ s.handles := by
    intro a ha
    obtain ⟨e, he, rfl⟩ := List.mem_map.mp ha
    have hne : s.strongCount e.2 ≠ 1 := by simpa using List.find?_eq_none.mp hfind e he
    have hone : (s.queue.map Prod.snd).count e.2 = 1 := List.count_eq_one_of_mem h.addrs ha
    unfold CacheSys.strongCount at hne
    exact List.count_pos_iff.mp (by omega)
  have hle := (List.subperm_of_subset h.addrs hshared).length_le
  rw [List.length_map] at hle
  omega

end Shadows

/-- No cached block with this id belongs to another device. -/
def Unaliased (s : CacheSys D) (blockId : Nat) (d : D) : Prop :=
  ∀ e ∈ s.queue, e.1 = blockId → ∀ c, s.cells e.2 = some c → c.blockDevice = d

namespace Shadows

variable {s s' : CacheSys D} {t : FlatSys D} [DecidableEq D]

theorem lookup (h : Shadows s t) {blockId a : Nat} {d : D} (hal : Unaliased s blockId d)
    (hs : s.blockCache blockId d = some (a, s')) :
    Shadows s' { t with handles := (d, blockId) :: t.handles }
      ∧ s'.handles = a :: s'.handles.tail := by
  unfold CacheSys.blockCache at hs
  split at hs
  · next e hfind =>
      cases hs
      have he := List.mem_of_find?_eq_some hfind
      have hid : e.1 = blockId := by simpa using List.find?_some hfind
      obtain ⟨c, hc, -⟩ := h.cell e he
      refine ⟨⟨h.len, h.ids, h.addrs, h.cell, h.fresh, h.cached, h.device, .cons ?_ h.handles⟩, rfl⟩
      exact ⟨by simpa [← hid] using he, c, hc, hal e he hid c hc⟩
  · next hfind =>
      have hnew : ∀ e ∈ s.queue, e.1 ≠ blockId := by
        intro e he
        simpa using List.find?_eq_none.mp hfind e he
      split at hs
      · next hfull =>
          obtain ⟨s₁, hs₁, heq⟩ := Option.map_eq_some_iff.mp hs
          obtain ⟨h1, hlen, -, hsub⟩ := h.evict hs₁
          have hload := h1.load d (by omega) fun e he => hnew e (hsub e he)
          rw [heq] at hload
          exact ⟨hload, by cases heq; rfl⟩
      · next hroom =>
          have hload := h.load d (by have := h.len; omega) hnew
          cases hs
          exact ⟨hload, rfl⟩

theorem lookup_isSome (h : Shadows s t) (hfew : s.handles.length < BLOCK_CACHE_SIZE)
    (blockId : Nat) (d : D) : (s.blockCache blockId d).isSome = true := by
  unfold CacheSys.blockCache
  split
  · rfl
  · split
    · next hfull =>
        rw [Option.isSome_map]
        exact h.evict_isSome hfull hfew
    · rfl

/-! ### Access and release -/

theorem store (h : Shadows s t) {a : Nat} {ht : D × Nat} {c : BlockCache D} {b : Block}
    (hq : (ht.2, a) ∈ s.queue) (hc : s.cells a = some c) (hdev : c.blockDevice = ht.1) :
    Shadows (s.store a b) { t with content := CacheSys.writeBlock t.content ht.1 ht.2 b } := by
  have hself : (s.store a b).cells a = some { c with cache := b, modified := true } := by
    simp [CacheSys.store, hc]
  have hother : ∀ a', a' ≠ a → (s.store a b).cells a' = s.cells a' := fun a' ha' =>
    Function.update_of_ne ha' ..
  obtain ⟨c₀, hc₀, hid⟩ := h.cell _ hq
  rw [hc] at hc₀
  cases hc₀
  have hkind : ∀ a' c', s.cells a' = some c' → ∃ c'', (s.store a b).cells a' = some c''
      ∧ c''.blockId = c'.blockId ∧ c''.blockDevice = c'.blockDevice
      ∧ (c'.modified = true → c''.modified = true) := by
    intro a' c' hc'
    rcases eq_or_ne a' a with rfl | hne
    · rw [hc] at hc'
      cases hc'
      exact ⟨_, hself, rfl, rfl, fun _ => rfl⟩
    · exact ⟨c', (hother a' hne).trans hc', rfl, rfl, id⟩
  refine ⟨h.len, h.ids, h.addrs, fun e he => ?_, h.fresh, fun e he c' hc' => ?_,
    fun d blockId => ?_, h.handles.imp fun a' ht' hrel => ⟨hrel.1, ?_⟩⟩
  · obtain ⟨c', hc', hid'⟩ := h.cell e he
    obtain ⟨c'', hc'', hid'', -⟩ := hkind _ _ hc'
    exact ⟨c'', hc'', hid''.trans hid'⟩
  · show CacheSys.writeBlock t.content ht.1 ht.2 b c'.blockDevice e.1 = c'.cache
    rw [writeBlock_apply]
    rcases eq_or_ne e.2 a with heq | hne
    · have hee := h.addr_inj he hq heq
      rw [heq, hself] at hc'
      cases hc'
      rw [if_pos ⟨hdev, by rw [hee]⟩]
    · rw [hother _ hne] at hc'
      rw [if_neg]
      · exact h.cached e he c' hc'
      · rintro ⟨-, heq⟩
        have hee := h.id_inj he hq heq
        exact hne (by rw [hee])
  · show s.dev d blockId = CacheSys.writeBlock t.content ht.1 ht.2 b d blockId ∨ _
    rw [writeBlock_apply]
    split
    · next heq =>
        obtain ⟨rfl, rfl⟩ := heq
        exact .inr ⟨_, hq, _, hself, rfl, hdev, rfl⟩
    · rcases h.device d blockId with hd | ⟨e, he, c', hc', h1, h2, hm⟩
      · exact .inl hd
      · obtain ⟨c'', hc'', -, hd'', hm''⟩ := hkind _ _ hc'
        exact .inr ⟨e, he, c'', hc'', h1, hd''.trans h2, hm'' hm⟩
  · obtain ⟨c', hc', hd'⟩ := hrel.2
    obtain ⟨c'', hc'', -, hd'', -⟩ := hkind _ _ hc'
    exact ⟨c'', hc'', hd''.trans hd'⟩

theorem forall₂_eraseIdx {α β : Type*} {R : α → β → Prop} {l : List α} {l' : List β}
    (h : List.Forall₂ R l l') (i : Nat) : List.Forall₂ R (l.eraseIdx i) (l'.eraseIdx i) := by
  induction h generalizing i with
  | nil => exact .nil
  | cons hab htail ih =>
      cases i with
      | zero => exact htail
      | succ i => exact .cons hab (ih i)

/-- The queue still refers to the block of a dropped handle. -/
theorem release (h : Shadows s t) {i : Nat} (hi : i < s.handles.length) :
    s.release i = { s with handles := s.handles.eraseIdx i }
      ∧ Shadows (s.release i) { t with handles := t.handles.eraseIdx i } := by
  have hget : s.handles[i]? = some s.handles[i] := List.getElem?_eq_getElem hi
  obtain ⟨ht, -, hq, -⟩ := h.handle hget
  have heq : s.release i = { s with handles := s.handles.eraseIdx i } := by
    unfold CacheSys.release
    rw [hget]
    dsimp only
    rw [if_neg]
    have : 0 < (s.queue.map Prod.snd).count s.handles[i] :=
      List.count_pos_iff.mpr (List.mem_map_of_mem hq)
    unfold CacheSys.strongCount
    dsimp only
    omega
  rw [heq]
  exact ⟨rfl, h.len, h.ids, h.addrs, h.cell, h.fresh, h.cached, h.device,
    forall₂_eraseIdx h.handles i⟩

theorem step (h : Shadows s t) {e : CacheEvent D} (hs : CacheStep s e s')
    (hal : ∀ blockId d, e = .lookup blockId d → Unaliased s blockId d) :
    ∃ t', Shadows s' t' ∧ FlatStep t e t' := by
  cases hs with
  | lookup hl => exact ⟨_, (h.lookup (hal _ _ rfl) hl).1, .lookup t _ _⟩
  | read hi hc =>
      obtain ⟨ht, hti, hq, c', hc', hdev⟩ := h.handle hi
      rw [hc] at hc'
      cases hc'
      refine ⟨t, h, ?_⟩
      rw [← h.cached _ hq _ hc, hdev]
      exact .read hti
  | modify f hi hc =>
      obtain ⟨ht, hti, hq, c', hc', hdev⟩ := h.handle hi
      rw [hc] at hc'
      cases hc'
      refine ⟨_, h.store hq hc hdev, ?_⟩
      rw [← h.cached _ hq _ hc, hdev]
      exact .modify f hti
  | drop hi => exact ⟨_, (h.release hi).2, .drop (h.handles.length_eq ▸ hi)⟩
  | syncAll => exact ⟨t, h.syncAll.1, .syncAll t⟩

/-- With fewer than 16 handles in use, a step of the arrays is one of the cache. -/
theorem lift {t' : FlatSys D} (h : Shadows s t) {e : CacheEvent D} (hs : FlatStep t e t')
    (hfew : t.handles.length < BLOCK_CACHE_SIZE)
    (hal : ∀ blockId d, e = .lookup blockId d → Unaliased s blockId d) :
    ∃ s', Shadows s' t' ∧ CacheStep s e s' := by
  rw [← h.handles.length_eq] at hfew
  cases hs with
  | lookup blockId d =>
      obtain ⟨⟨a, s'⟩, hl⟩ := Option.isSome_iff_exists.mp (h.lookup_isSome hfew blockId d)
      exact ⟨s', (h.lookup (hal _ _ rfl) hl).1, .lookup hl⟩
  | read hi =>
      obtain ⟨a, c, hget, -, hc, -, hcontent⟩ := h.handle_of hi
      rw [hcontent]
      exact ⟨s, h, .read hget hc⟩
  | modify f hi =>
      obtain ⟨a, c, hget, hq, hc, hdev, hcontent⟩ := h.handle_of hi
      rw [hcontent]
      exact ⟨_, @store _ _ _ _ h a (_, _) c _ hq hc hdev, .modify f hget hc⟩
  | drop hi =>
      have hi := h.handles.length_eq.symm ▸ hi
      exact ⟨_, (h.release hi).2, .drop hi⟩
  | syncAll => exact ⟨_, h.syncAll.1, .syncAll⟩

end Shadows

/-! ## Two devices -/

/-- A step whose lookup, if it is one, finds no block of another device. -/
def UnaliasedStep [DecidableEq D] (s : CacheSys D) (e : CacheEvent D) (s' : CacheSys D) : Prop :=
  CacheStep s e s' ∧ ∀ blockId d, e = .lookup blockId d → Unaliased s blockId d

/-- Every run without an aliased lookup shows exactly what separate arrays,
one for each device, show, and writing all blocks back leaves those arrays on
the devices. -/
theorem cache_isolates_devices [DecidableEq D] {dev : D → Nat → Block} {tr : List (CacheEvent D)}
    {s : CacheSys D} (h : Runs UnaliasedStep (CacheSys.init dev) tr s) :
    ∃ t, Runs FlatStep ⟨dev, []⟩ tr t
      ∧ ∀ d blockId, s.syncAll.dev d blockId = t.content d blockId := by
  obtain ⟨t, hst, hrun⟩ := Runs.simulation (R := Shadows)
    (fun s e s' t hR hs => hR.step hs.1 hs.2) h (Shadows.init dev)
  exact ⟨t, hrun, hst.syncAll.2⟩

/-- Two devices whose blocks are all zero. -/
def twoDisks : Bool → Nat → Block := fun _ _ => Block.zero

/-- Block 0 of one device and block 1 of the other are looked up and filled. Each handle
reads its own block, and each device gets its own. -/
theorem cache_isolates_two_disks :
    ∃ s, Runs UnaliasedStep (CacheSys.init twoDisks)
        [.lookup 0 true, .modify 0 fun _ => Vector.replicate BLOCK_SZ 1, .lookup 1 false,
          .modify 0 fun _ => Vector.replicate BLOCK_SZ 2, .read 1 (Vector.replicate BLOCK_SZ 1),
          .read 0 (Vector.replicate BLOCK_SZ 2)] s
      ∧ s.syncAll.dev true 0 = Vector.replicate BLOCK_SZ 1 ∧ s.syncAll.dev true 1 = Block.zero
      ∧ s.syncAll.dev false 0 = Block.zero
      ∧ s.syncAll.dev false 1 = Vector.replicate BLOCK_SZ 2 := by
  let ones : Block := Vector.replicate BLOCK_SZ 1
  let twos : Block := Vector.replicate BLOCK_SZ 2
  let s₁ := ((CacheSys.init twoDisks).load 0 true).2
  let s₂ := s₁.store 0 ones
  let s₃ := (s₂.load 1 false).2
  let s₄ := s₃.store 1 twos
  -- Only a lookup has to find no block of the other device.
  have hother : ∀ {s s' : CacheSys Bool} {e : CacheEvent Bool}, CacheStep s e s' →
      (∀ blockId d, e ≠ .lookup blockId d) → UnaliasedStep s e s' :=
    fun hs hne => ⟨hs, fun blockId d he => absurd he (hne blockId d)⟩
  have h₁ : UnaliasedStep (CacheSys.init twoDisks) (.lookup 0 true) s₁ :=
    ⟨.lookup rfl, fun _ _ _ _ he => absurd he List.not_mem_nil⟩
  have h₂ : UnaliasedStep s₁ (.modify 0 fun _ => ones) s₂ :=
    hother (CacheStep.modify (i := 0) (a := 0) _ rfl rfl) (by simp)
  have h₃ : UnaliasedStep s₂ (.lookup 1 false) s₃ := by
    refine ⟨.lookup rfl, ?_⟩
    rintro blockId d heq e he hid
    cases heq
    rw [List.mem_singleton.mp he] at hid
    cases hid
  have h₄ : UnaliasedStep s₃ (.modify 0 fun _ => twos) s₄ :=
    hother (CacheStep.modify (i := 0) (a := 1) _ rfl rfl) (by simp)
  have h₅ : UnaliasedStep s₄ (.read 1 ones) s₄ :=
    hother (CacheStep.read (i := 1) (a := 0) (c := ⟨ones, 0, true, true⟩) rfl rfl) (by simp)
  have h₆ : UnaliasedStep s₄ (.read 0 twos) s₄ :=
    hother (CacheStep.read (i := 0) (a := 1) (c := ⟨twos, 1, false, true⟩) rfl rfl) (by simp)
  have hrun := Runs.cons h₁ <| Runs.cons h₂ <| Runs.cons h₃ <| Runs.cons h₄ <| Runs.cons h₅ <|
    Runs.single h₆
  obtain ⟨t, hflat, hdev⟩ := cache_isolates_devices hrun
  let t₁ : FlatSys Bool := ⟨twoDisks, [(true, 0)]⟩
  let t₂ : FlatSys Bool := { t₁ with content := CacheSys.writeBlock twoDisks true 0 ones }
  let t₃ : FlatSys Bool := { t₂ with handles := [(false, 1), (true, 0)] }
  let t₄ : FlatSys Bool := { t₃ with content := CacheSys.writeBlock t₂.content false 1 twos }
  have g₁ : FlatStep ⟨twoDisks, []⟩ (.lookup 0 true) t₁ := .lookup ..
  have g₂ : FlatStep t₁ (.modify 0 fun _ => ones) t₂ := .modify _ rfl
  have g₃ : FlatStep t₂ (.lookup 1 false) t₃ := .lookup ..
  have g₄ : FlatStep t₃ (.modify 0 fun _ => twos) t₄ := .modify _ rfl
  have g₅ : FlatStep t₄ (.read 1 ones) t₄ := FlatStep.read (t := t₄) (d := true) (i := 1) rfl
  have g₆ : FlatStep t₄ (.read 0 twos) t₄ := FlatStep.read (t := t₄) (d := false) (i := 0) rfl
  obtain rfl : t = t₄ := Runs.deterministic (fun _ _ _ _ a b => a.deterministic b rfl) hflat
    (Runs.cons g₁ <| Runs.cons g₂ <| Runs.cons g₃ <| Runs.cons g₄ <| Runs.cons g₅ <|
      Runs.single g₆)
  exact ⟨s₄, hrun, hdev true 0, hdev true 1, hdev false 0, hdev false 1⟩

/-- Block 0 of one device is filled; the lookup of block 0 of the other device
then finds the same cached block, and the read shows the first device's data.
Separate arrays never show this. -/
theorem cache_aliases_devices :
    ∃ tr s, Runs CacheStep (CacheSys.init twoDisks) tr s
      ∧ ∀ t, ¬ Runs FlatStep ⟨twoDisks, []⟩ tr t := by
  let ones : Block := Vector.replicate BLOCK_SZ 1
  have h₁ : CacheStep (CacheSys.init twoDisks) (.lookup 0 true) _ := .lookup rfl
  have h₂ := CacheStep.modify (s := ((CacheSys.init twoDisks).load 0 true).2) (i := 0) (a := 0)
    (fun _ => ones) rfl rfl
  have h₃ : CacheStep (((CacheSys.init twoDisks).load 0 true).2.store 0 ones) (.lookup 0 false) _ :=
    .lookup rfl
  have h₄ : CacheStep _ (.read 0 ones) _ := CacheStep.read (i := 0) (a := 0)
    (s := { ((CacheSys.init twoDisks).load 0 true).2.store 0 ones with handles := [0, 0] })
    (c := ⟨ones, 0, true, true⟩) rfl rfl
  refine ⟨_, _, ((Runs.single h₁).snoc h₂).snoc h₃ |>.snoc h₄, fun t hrun => ?_⟩
  obtain ⟨t₃, hrun, hread⟩ := hrun.snoc_inv
  obtain ⟨t₂, hrun, hlook⟩ := hrun.snoc_inv
  obtain ⟨t₁, hrun, hmod⟩ := hrun.snoc_inv
  cases hrun.single_inv
  cases hmod with
  | modify _ hi =>
      cases hi
      cases hlook
      obtain ⟨d, blockId, hi, hb⟩ := hread.read_inv
      cases hi
      have hbyte : ones.byte 0 = Block.zero.byte 0 := congrArg (Block.byte · 0) hb
      revert hbyte
      decide

end Nimloth

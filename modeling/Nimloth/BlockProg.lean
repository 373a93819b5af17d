import Mathlib.Tactic.Common
import Mathlib.Logic.Function.Basic
import Nimloth.BlockCache

/-!
# Programs over blocks

The file system never holds a block across two statements: every access
is `block_cache(id, dev).lock().read(..)` or `.modify(..)`, with a
closure that may itself access other blocks. `BlockProg` is the language
of such programs. Handles are nested by construction, and a closure that
asks for a block locked further out waits for ever.

A program has two meanings. `flat` runs it on an array of blocks, and is
what the file system is reasoned about with: `Post E p held σ Q` says
that from `σ`, with the blocks `held` locked, the program returns with
`Q`, or stops with an error `E` allows. `run` runs it on the block cache
and its device. `run_simulates` says that the two agree, for every
program that nests less deep than the cache is large.

Arithmetic that leaves its machine type is an error here (`overflow`):
it panics in a build with overflow checks, and what a build without them
makes of the wrapped number is not described.
-/

namespace Nimloth

/-- Why a program does not return. -/
inductive FsErr where
  | panic
  | overflow
  | deadlock
  deriving DecidableEq, Repr

inductive BlockProg : Type → Type 1 where
  | ret {α : Type} (a : α) : BlockProg α
  | fail {α : Type} (e : FsErr) : BlockProg α
  | read {α β : Type} (id : Nat) (body : Block → BlockProg β) (k : β → BlockProg α) : BlockProg α
  | modify {α β : Type} (id : Nat) (body : Block → BlockProg (β × Block))
      (k : β → BlockProg α) : BlockProg α
  | syncAll {α : Type} (k : BlockProg α) : BlockProg α

namespace BlockProg

variable {α β : Type}

protected def bind : {α : Type} → BlockProg α → (α → BlockProg β) → BlockProg β
  | _, .ret a, f => f a
  | _, .fail e, _ => .fail e
  | _, .read id body k, f => .read id body fun x => (k x).bind f
  | _, .modify id body k, f => .modify id body fun x => (k x).bind f
  | _, .syncAll k, f => .syncAll (k.bind f)

instance : Monad BlockProg where
  pure := .ret
  bind := .bind

/-- `block_cache(id, dev).lock().read(0, body)`. -/
def readBlock (id : Nat) (body : Block → BlockProg α) : BlockProg α := .read id body .ret

/-- `block_cache(id, dev).lock().modify(0, body)`; the closure returns the
block as it leaves it. -/
def modifyBlock (id : Nat) (body : Block → BlockProg (α × Block)) : BlockProg α :=
  .modify id body .ret

/-- `block_cache_sync_all()`. -/
def blockCacheSyncAll : BlockProg Unit := .syncAll (.ret ())

/-- `assert!(c)`. -/
def assert (c : Prop) [Decidable c] : BlockProg Unit := if c then pure () else fail .panic

/-- `o.unwrap()`. -/
def unwrap : Option α → BlockProg α
  | some a => pure a
  | none => fail .panic

/-- `a + b` at a machine type with values below `bound`. -/
def add (bound a b : Nat) : BlockProg Nat := if a + b < bound then pure (a + b) else fail .overflow

/-- `a - b` of unsigned numbers. -/
def sub (a b : Nat) : BlockProg Nat := if b ≤ a then pure (a - b) else fail .overflow

/-! ## On an array of blocks -/

/-- The contents of the device, by block id. -/
abbrev Store := Nat → Block

def flat : {α : Type} → BlockProg α → List Nat → Store → Except FsErr (α × Store)
  | _, .ret a, _, σ => .ok (a, σ)
  | _, .fail e, _, _ => .error e
  | _, .read id body k, held, σ =>
      if id ∈ held then .error .deadlock
      else match (body (σ id)).flat (id :: held) σ with
        | .error e => .error e
        | .ok (x, σ) => (k x).flat held σ
  | _, .modify id body k, held, σ =>
      if id ∈ held then .error .deadlock
      else match (body (σ id)).flat (id :: held) σ with
        | .error e => .error e
        | .ok ((x, b), σ) => (k x).flat held (Function.update σ id b)
  | _, .syncAll k, held, σ => if held = [] then k.flat held σ else .error .deadlock

theorem flat_bind (p : BlockProg α) (f : α → BlockProg β) (held : List Nat) (σ : Store) :
    (p >>= f).flat held σ = match p.flat held σ with
      | .error e => .error e
      | .ok (a, σ) => (f a).flat held σ := by
  show (p.bind f).flat held σ = _
  induction p generalizing held σ with
  | ret a => rfl
  | fail e => rfl
  | read id body k _ ih =>
      simp only [BlockProg.bind, flat]
      by_cases hid : id ∈ held
      · rw [if_pos hid, if_pos hid]
      · rw [if_neg hid, if_neg hid]
        split
        · rfl
        · exact ih _ _ _ _
  | modify id body k _ ih =>
      simp only [BlockProg.bind, flat]
      by_cases hid : id ∈ held
      · rw [if_pos hid, if_pos hid]
      · rw [if_neg hid, if_neg hid]
        split
        · rfl
        · exact ih _ _ _ _
  | syncAll k ih =>
      simp only [BlockProg.bind, flat]
      split
      · exact ih _ _ _
      · rfl

/-! ## Postconditions -/

/-- The program returns with `Q`, or stops with an error that `E` allows. -/
def Post (E : FsErr → Prop) (p : BlockProg α) (held : List Nat) (σ : Store)
    (Q : α → Store → Prop) : Prop :=
  match p.flat held σ with
  | .error e => E e
  | .ok (a, σ) => Q a σ

/-- The program returns, with `Q`. -/
abbrev Returns (p : BlockProg α) (held : List Nat) (σ : Store) (Q : α → Store → Prop) : Prop :=
  Post (fun _ => False) p held σ Q

/-- If the program returns, then with `Q`. -/
abbrev Ensures (p : BlockProg α) (held : List Nat) (σ : Store) (Q : α → Store → Prop) : Prop :=
  Post (fun _ => True) p held σ Q

namespace Post

variable {E : FsErr → Prop} {p : BlockProg α} {held : List Nat} {σ : Store} {Q R : α → Store → Prop}

@[simp] theorem pure_iff {a : α} : Post E (pure a) held σ Q ↔ Q a σ := Iff.rfl

@[simp] theorem fail_iff {e : FsErr} : Post E (fail e : BlockProg α) held σ Q ↔ E e := Iff.rfl

@[simp] theorem bind_iff {f : α → BlockProg β} {Q : β → Store → Prop} :
    Post E (p >>= f) held σ Q ↔ Post E p held σ fun a σ => Post E (f a) held σ Q := by
  unfold Post
  rw [flat_bind]
  cases p.flat held σ with
  | error e => rfl
  | ok r => rfl

theorem read_iff {id : Nat} {body : Block → BlockProg α} (hid : id ∉ held) :
    Post E (readBlock id body) held σ Q ↔ Post E (body (σ id)) (id :: held) σ Q := by
  simp only [Post, readBlock, flat, if_neg hid]
  cases (body (σ id)).flat (id :: held) σ with
  | error e => rfl
  | ok r => rfl

theorem modify_iff {id : Nat} {body : Block → BlockProg (α × Block)} (hid : id ∉ held) :
    Post E (modifyBlock id body) held σ Q
      ↔ Post E (body (σ id)) (id :: held) σ fun r σ => Q r.1 (Function.update σ id r.2) := by
  simp only [Post, modifyBlock, flat, if_neg hid]
  cases (body (σ id)).flat (id :: held) σ with
  | error e => rfl
  | ok r => rfl

/-- The rule for a block that may be locked. -/
theorem modify_of {id : Nat} {body : Block → BlockProg (α × Block)} (hE : id ∈ held → E .deadlock)
    (h : id ∉ held → Post E (body (σ id)) (id :: held) σ fun r σ =>
      Q r.1 (Function.update σ id r.2)) : Post E (modifyBlock id body) held σ Q := by
  by_cases hid : id ∈ held
  · simp only [Post, modifyBlock, flat, if_pos hid]
    exact hE hid
  · exact (modify_iff hid).mpr (h hid)

@[simp] theorem syncAll_iff {Q : Unit → Store → Prop} :
    Post E blockCacheSyncAll [] σ Q ↔ Q () σ := Iff.rfl

@[simp] theorem assert_iff {c : Prop} [Decidable c] {Q : Unit → Store → Prop} :
    Post E (assert c) held σ Q ↔ (c → Q () σ) ∧ (¬ c → E .panic) := by
  unfold assert
  by_cases hc : c
  · simp [hc]
  · simp [hc]

@[simp] theorem unwrap_some {a : α} : Post E (unwrap (some a)) held σ Q ↔ Q a σ := Iff.rfl

@[simp] theorem unwrap_none : Post E (unwrap none) held σ Q ↔ E .panic := Iff.rfl

@[simp] theorem add_iff {bound a b : Nat} {Q : Nat → Store → Prop} :
    Post E (add bound a b) held σ Q ↔ (a + b < bound → Q (a + b) σ) ∧ (bound ≤ a + b → E .overflow) := by
  unfold add
  by_cases h : a + b < bound
  · simp [h, Nat.not_le.mpr h]
  · simp [h, Nat.not_lt.mp h]

@[simp] theorem sub_iff {a b : Nat} {Q : Nat → Store → Prop} :
    Post E (sub a b) held σ Q ↔ (b ≤ a → Q (a - b) σ) ∧ (a < b → E .overflow) := by
  unfold sub
  by_cases h : b ≤ a
  · simp [h, Nat.not_lt.mpr h]
  · simp [h, Nat.not_le.mp h]

theorem mono (h : Post E p held σ Q) (hQ : ∀ a σ, Q a σ → R a σ) : Post E p held σ R := by
  unfold Post at h ⊢
  split
  · next e he =>
      rw [he] at h
      exact h
  · next a σ' ha =>
      rw [ha] at h
      exact hQ _ _ h

theorem of_returns (h : Returns p held σ Q) : Post E p held σ Q := by
  unfold Returns Post at h
  unfold Post
  split
  · next e he =>
      rw [he] at h
      exact h.elim
  · next a σ' ha =>
      rw [ha] at h
      exact h

/-- A program that stops satisfies every postcondition of a returning run. -/
theorem ensures_trivial (p : BlockProg α) (held : List Nat) (σ : Store) :
    Ensures p held σ fun _ _ => True := by
  unfold Ensures Post
  split <;> trivial

theorem of_ok {a : α} {σ' : Store} (h : p.flat held σ = .ok (a, σ')) (hQ : Q a σ') :
    Post E p held σ Q := by
  unfold Post
  rw [h]
  exact hQ

theorem ok {a : α} {σ' : Store} (h : Post E p held σ Q) (hp : p.flat held σ = .ok (a, σ')) :
    Q a σ' := by
  unfold Post at h
  rwa [hp] at h

theorem and (h : Post E p held σ Q) (h' : Ensures p held σ R) :
    Post E p held σ fun a σ => Q a σ ∧ R a σ := by
  unfold Ensures Post at h'
  unfold Post at h ⊢
  split
  · next e he =>
      rw [he] at h
      exact h
  · next a σ' ha =>
      rw [ha] at h h'
      exact ⟨h, h'⟩

theorem self (hE : ∀ e, E e) : Post E p held σ fun a σ' => p.flat held σ = .ok (a, σ') := by
  unfold Post
  split
  · exact hE _
  · assumption

theorem error {e : FsErr} (h : Post E p held σ Q) (hp : p.flat held σ = .error e) : E e := by
  unfold Post at h
  rwa [hp] at h

end Post

theorem Returns.exists_ok {p : BlockProg α} {held : List Nat} {σ : Store} {Q : α → Store → Prop}
    (h : Returns p held σ Q) : ∃ a σ', p.flat held σ = .ok (a, σ') ∧ Q a σ' := by
  unfold Returns Post at h
  cases hp : p.flat held σ with
  | error e =>
      rw [hp] at h
      exact h.elim
  | ok r =>
      rw [hp] at h
      exact ⟨r.1, r.2, rfl, h⟩

/-- A program that never returns stops with an allowed error. -/
theorem Post.exists_error {E : FsErr → Prop} {p : BlockProg α} {held : List Nat} {σ : Store}
    (h : Post E p held σ fun _ _ => False) : ∃ e, p.flat held σ = .error e ∧ E e := by
  unfold Post at h
  cases hp : p.flat held σ with
  | error e =>
      rw [hp] at h
      exact ⟨e, rfl, h⟩
  | ok r =>
      rw [hp] at h
      exact h.elim

/-! ## The shape of a program -/

/-- The closures are nested at most `d` deep, and without `w` no block is
written. -/
def Within : {α : Type} → BlockProg α → Bool → Nat → Prop
  | _, .ret _, _, _ => True
  | _, .fail _, _, _ => True
  | _, .read _ body k, w, d => 0 < d ∧ (∀ b, (body b).Within w (d - 1)) ∧ ∀ x, (k x).Within w d
  | _, .modify _ body k, w, d =>
      w = true ∧ 0 < d ∧ (∀ b, (body b).Within w (d - 1)) ∧ ∀ x, (k x).Within w d
  | _, .syncAll k, w, d => w = true ∧ k.Within w d

namespace Within

variable {w : Bool} {d : Nat}

theorem mono {p : BlockProg α} {w' : Bool} {d' : Nat} (hp : p.Within w d) (hw : w = true → w' = true)
    (hd : d ≤ d') : p.Within w' d' := by
  induction p generalizing d d' with
  | ret a => trivial
  | fail e => trivial
  | read id body k ihb ihk =>
      obtain ⟨hpos, hb, hk⟩ := hp
      exact ⟨by omega, fun b => ihb b (hb b) (by omega), fun x => ihk x (hk x) hd⟩
  | modify id body k ihb ihk =>
      obtain ⟨hwrite, hpos, hb, hk⟩ := hp
      exact ⟨hw hwrite, by omega, fun b => ihb b (hb b) (by omega), fun x => ihk x (hk x) hd⟩
  | syncAll k ih => exact ⟨hw hp.1, ih hp.2 hd⟩

theorem bind {p : BlockProg α} {f : α → BlockProg β} (hp : p.Within w d)
    (hf : ∀ a, (f a).Within w d) : (p >>= f).Within w d := by
  show (p.bind f).Within w d
  induction p with
  | ret a => exact hf a
  | fail e => trivial
  | read id body k _ ih => exact ⟨hp.1, hp.2.1, fun x => ih x (hp.2.2 x) hf⟩
  | modify id body k _ ih => exact ⟨hp.1, hp.2.1, hp.2.2.1, fun x => ih x (hp.2.2.2 x) hf⟩
  | syncAll k ih => exact ⟨hp.1, ih hp.2 hf⟩

theorem read_iff {id : Nat} {body : Block → BlockProg β} {k : β → BlockProg α} :
    (read id body k).Within w d
      ↔ 0 < d ∧ (∀ b, (body b).Within w (d - 1)) ∧ ∀ x, (k x).Within w d := Iff.rfl

theorem modify_iff {id : Nat} {body : Block → BlockProg (β × Block)} {k : β → BlockProg α} :
    (modify id body k).Within w d
      ↔ w = true ∧ 0 < d ∧ (∀ b, (body b).Within w (d - 1)) ∧ ∀ x, (k x).Within w d := Iff.rfl

theorem syncAll_iff {k : BlockProg α} : (syncAll k).Within w d ↔ w = true ∧ k.Within w d := Iff.rfl

theorem pure (a : α) : (Pure.pure a : BlockProg α).Within w d := trivial

theorem fail (e : FsErr) : (BlockProg.fail e : BlockProg α).Within w d := trivial

theorem readBlock {id : Nat} {body : Block → BlockProg α} (h : ∀ b, (body b).Within w d) :
    (readBlock id body).Within w (d + 1) :=
  ⟨Nat.succ_pos d, h, fun _ => trivial⟩

theorem modifyBlock {id : Nat} {body : Block → BlockProg (α × Block)}
    (h : ∀ b, (body b).Within true d) : (modifyBlock id body).Within true (d + 1) :=
  ⟨rfl, Nat.succ_pos d, h, fun _ => trivial⟩

theorem blockCacheSyncAll : blockCacheSyncAll.Within true d := ⟨rfl, trivial⟩

theorem assert {c : Prop} [Decidable c] : (assert c).Within w d := by
  unfold BlockProg.assert
  split <;> trivial

theorem unwrap {o : Option α} : (unwrap o).Within w d := by
  cases o <;> trivial

theorem add {bound a b : Nat} : (add bound a b).Within w d := by
  unfold BlockProg.add
  split <;> trivial

theorem sub {a b : Nat} : (sub a b).Within w d := by
  unfold BlockProg.sub
  split <;> trivial

/-- A program that writes no block leaves the store. -/
theorem ensures {p : BlockProg α} (hp : p.Within false d) (held : List Nat) (σ : Store) :
    Ensures p held σ fun _ σ' => σ' = σ := by
  induction p generalizing d held with
  | ret a => exact rfl
  | fail e => trivial
  | read id body k ihb ihk =>
      simp only [Ensures, Post, flat]
      by_cases hid : id ∈ held
      · rw [if_pos hid]
        trivial
      · rw [if_neg hid]
        have hb := ihb (σ id) (hp.2.1 _) (id :: held)
        unfold Ensures Post at hb
        cases hrun : (body (σ id)).flat (id :: held) σ with
        | error e => trivial
        | ok r =>
            rw [hrun] at hb
            have heq : r.2 = σ := hb
            have hk := ihk r.1 (hp.2.2 _) held
            unfold Ensures Post at hk
            simpa only [heq] using hk
  | modify => cases hp.1
  | syncAll => cases hp.1

end Within

-- from here on programs are reasoned about by the rules only
attribute [irreducible] Post

/-! ## On the cache -/

/-- The block is looked up and locked; its entry stays in the queue as long as
the closure runs. -/
def run : {α : Type} → BlockProg α → CacheSys Unit → Except FsErr (α × CacheSys Unit)
  | _, .ret a, s => .ok (a, s)
  | _, .fail e, _ => .error e
  | _, .read id body k, s =>
      match s.blockCache id () with
      | none => .error .panic
      | some (a, s₁) =>
          if a ∈ s.handles then .error .deadlock
          else match s₁.cells a with
            | none => .error .panic
            | some c =>
                match (body c.cache).run s₁ with
                | .error e => .error e
                | .ok (x, s₂) => (k x).run (s₂.release 0)
  | _, .modify id body k, s =>
      match s.blockCache id () with
      | none => .error .panic
      | some (a, s₁) =>
          if a ∈ s.handles then .error .deadlock
          else match s₁.cells a with
            | none => .error .panic
            | some c =>
                match (body c.cache).run s₁ with
                | .error e => .error e
                | .ok ((x, b), s₂) => (k x).run ((s₂.store a b).release 0)
  | _, .syncAll k, s => if s.handles = [] then k.run s.syncAll else .error .deadlock

/-- The cache `s` stands for the array `σ`, with the blocks `held` in use. -/
def Caches (s : CacheSys Unit) (held : List Nat) (σ : Store) : Prop :=
  Shadows s ⟨fun _ => σ, held.map (Prod.mk ())⟩

/-- A lookup with room for one more handle succeeds; it finds a block in use
exactly if the id is that of one. -/
theorem Caches.lookup {s : CacheSys Unit} {held : List Nat} {σ : Store} (h : Caches s held σ)
    (hroom : held.length < BLOCK_CACHE_SIZE) (id : Nat) :
    ∃ a s' c, s.blockCache id () = some (a, s') ∧ Caches s' (id :: held) σ
      ∧ s'.handles = a :: s.handles ∧ (a ∈ s.handles ↔ id ∈ held)
      ∧ s'.cells a = some c ∧ c.cache = σ id := by
  have hlen : s.handles.length = held.length := by simpa using h.handles.length_eq
  have hsome := h.lookup_isSome (by omega) id ()
  obtain ⟨⟨a, s'⟩, hs⟩ := Option.isSome_iff_exists.mp hsome
  obtain ⟨hs', -⟩ := Shadows.lookup h (fun _ _ _ _ _ => rfl) hs
  have hcons : s'.handles = a :: s.handles := CacheSys.blockCache_handles hs
  have hrel := hs'.handles
  rw [hcons] at hrel
  obtain ⟨⟨hq, c, hc, -⟩, htail⟩ := List.forall₂_cons.mp hrel
  refine ⟨a, s', c, hs, hs', hcons, ⟨?_, ?_⟩, hc, (hs'.cached _ hq c hc).symm⟩
  · intro ha
    obtain ⟨i, hi, rfl⟩ := List.getElem_of_mem ha
    have hi' : i < held.length := by omega
    obtain ⟨hq', -⟩ := htail.get hi (by simpa using hi')
    have heq := hs'.addr_inj hq' hq rfl
    simp only [List.get_eq_getElem, List.getElem_map, Prod.mk.injEq] at heq
    exact heq.1 ▸ List.getElem_mem _
  · intro hid
    obtain ⟨i, hi, rfl⟩ := List.getElem_of_mem hid
    have hi' : i < s.handles.length := by omega
    obtain ⟨hq', -⟩ := htail.get hi' (by simpa using hi)
    have heq := hs'.id_inj hq' hq (by simp)
    simp only [Prod.mk.injEq] at heq
    exact heq.2 ▸ List.get_mem _ _

theorem Caches.release {s : CacheSys Unit} {held : List Nat} {σ : Store} {id : Nat}
    (h : Caches s (id :: held) σ) : Caches (s.release 0) held σ := by
  have hlen : s.handles.length = (id :: held).length := by simpa using h.handles.length_eq
  have hpos : 0 < s.handles.length := by simp [hlen]
  exact (Shadows.release h hpos).2

theorem Caches.store {s : CacheSys Unit} {held : List Nat} {σ : Store} {id a : Nat} {b : Block}
    (h : Caches s (id :: held) σ) (ha : s.handles[0]? = some a) :
    Caches (s.store a b) (id :: held) (Function.update σ id b) := by
  obtain ⟨ht, hi, hq, c, hc, hdev⟩ := h.handle ha
  cases hi
  have hstore := Shadows.store h (b := b) hq hc hdev
  exact hstore

/-- What the program does on the array it does on the cache, and the other way
round. -/
theorem run_simulates (p : BlockProg α) {d : Nat} {s : CacheSys Unit} {held : List Nat} {σ : Store}
    (hp : p.Within true d) (hd : held.length + d ≤ BLOCK_CACHE_SIZE) (h : Caches s held σ) :
    match p.flat held σ with
    | .error e => p.run s = .error e
    | .ok (a, σ') => ∃ s', p.run s = .ok (a, s') ∧ Caches s' held σ' ∧ s'.handles = s.handles := by
  induction p generalizing d s held σ with
  | ret a => exact ⟨s, rfl, h, rfl⟩
  | fail e => exact rfl
  | read id body k ihb ihk =>
      obtain ⟨hpos, hb, hk⟩ := hp
      obtain ⟨a, s₁, c, hs, h₁, hcons, hiff, hc, hcache⟩ := h.lookup (by omega) id
      simp only [flat, run, hs]
      by_cases hid : id ∈ held
      · rw [if_pos hid, if_pos (hiff.mpr hid)]
      · rw [if_neg hid, if_neg (mt hiff.mp hid), hc]
        have hbody := ihb (σ id) (hb (σ id)) (by simp only [List.length_cons]; omega) h₁
        simp only [hcache]
        cases hrun : (body (σ id)).flat (id :: held) σ with
        | error e =>
            rw [hrun] at hbody
            simp only [hbody]
        | ok r =>
            rw [hrun] at hbody
            obtain ⟨s₂, hs₂, h₂, hh₂⟩ := hbody
            have hrest := ihk r.1 (hk r.1) hd h₂.release
            have hrel : (s₂.release 0).handles = s.handles := by
              rw [(Shadows.release h₂ (by simp [hh₂, hcons])).1]
              simp [hh₂, hcons]
            rw [hrel] at hrest
            simp only [hs₂]
            exact hrest
  | modify id body k ihb ihk =>
      obtain ⟨-, hpos, hb, hk⟩ := hp
      obtain ⟨a, s₁, c, hs, h₁, hcons, hiff, hc, hcache⟩ := h.lookup (by omega) id
      simp only [flat, run, hs]
      by_cases hid : id ∈ held
      · rw [if_pos hid, if_pos (hiff.mpr hid)]
      · rw [if_neg hid, if_neg (mt hiff.mp hid), hc]
        have hbody := ihb (σ id) (hb (σ id)) (by simp only [List.length_cons]; omega) h₁
        simp only [hcache]
        cases hrun : (body (σ id)).flat (id :: held) σ with
        | error e =>
            rw [hrun] at hbody
            simp only [hbody]
        | ok r =>
            rw [hrun] at hbody
            obtain ⟨s₂, hs₂, h₂, hh₂⟩ := hbody
            have hstore := h₂.store (b := r.1.2) (a := a) (by simp [hh₂, hcons])
            have hrest := ihk r.1.1 (hk r.1.1) hd hstore.release
            have hrel : ((s₂.store a r.1.2).release 0).handles = s.handles := by
              rw [(Shadows.release hstore (by simp [CacheSys.store, hh₂, hcons])).1]
              simp [CacheSys.store, hh₂, hcons]
            rw [hrel] at hrest
            simp only [hs₂]
            exact hrest
  | syncAll k ih =>
      simp only [flat, run]
      have hlen : s.handles.length = held.length := by simpa using h.handles.length_eq
      have hnil : s.handles = [] ↔ held = [] := by
        rw [← List.length_eq_zero_iff, ← List.length_eq_zero_iff, hlen]
      by_cases hheld : held = []
      · rw [if_pos hheld, if_pos (hnil.mpr hheld)]
        have hrest := ih hp.2 hd (Shadows.syncAll h).1
        rw [CacheSys.syncAll_handles] at hrest
        exact hrest
      · rw [if_neg hheld, if_neg (mt hnil.mp hheld)]

theorem run_bind (p : BlockProg α) (f : α → BlockProg β) (s : CacheSys Unit) :
    (p >>= f).run s = match p.run s with
      | .error e => .error e
      | .ok (a, s) => (f a).run s := by
  show (p.bind f).run s = _
  induction p generalizing s with
  | ret a => rfl
  | fail e => rfl
  | read id body k _ ih =>
      simp only [BlockProg.bind, run]
      split
      · rfl
      · split
        · rfl
        · split
          · rfl
          · split
            · rfl
            · exact ih _ _ _
  | modify id body k _ ih =>
      simp only [BlockProg.bind, run]
      split
      · rfl
      · split
        · rfl
        · split
          · rfl
          · split
            · rfl
            · exact ih _ _ _
  | syncAll k ih =>
      simp only [BlockProg.bind, run]
      split
      · exact ih _ _
      · rfl

/-- A run on the cache is one on the array. -/
theorem flat_of_run {p : BlockProg α} {d : Nat} {s s' : CacheSys Unit} {held : List Nat} {σ : Store}
    {a : α} (hp : p.Within true d) (hd : held.length + d ≤ BLOCK_CACHE_SIZE) (h : Caches s held σ)
    (hrun : p.run s = .ok (a, s')) :
    ∃ σ', p.flat held σ = .ok (a, σ') ∧ Caches s' held σ' ∧ s'.handles = s.handles := by
  have hsim := run_simulates p hp hd h
  cases hflat : p.flat held σ with
  | error e =>
      rw [hflat] at hsim
      rw [hsim] at hrun
      cases hrun
  | ok r =>
      rw [hflat] at hsim
      obtain ⟨s₁, hs₁, hc, hh⟩ := hsim
      rw [hs₁] at hrun
      cases hrun
      exact ⟨r.2, rfl, hc, hh⟩

theorem run_of_flat {p : BlockProg α} {d : Nat} {s : CacheSys Unit} {held : List Nat} {σ σ' : Store}
    {a : α} (hp : p.Within true d) (hd : held.length + d ≤ BLOCK_CACHE_SIZE) (h : Caches s held σ)
    (hflat : p.flat held σ = .ok (a, σ')) : ∃ s', p.run s = .ok (a, s') ∧ Caches s' held σ' := by
  have hsim := run_simulates p hp hd h
  rw [hflat] at hsim
  obtain ⟨s', hs', hc, -⟩ := hsim
  exact ⟨s', hs', hc⟩

/-- An error on the array is one on the cache. -/
theorem run_of_flat_error {p : BlockProg α} {d : Nat} {s : CacheSys Unit} {held : List Nat}
    {σ : Store} {e : FsErr} (hp : p.Within true d) (hd : held.length + d ≤ BLOCK_CACHE_SIZE)
    (h : Caches s held σ) (hflat : p.flat held σ = .error e) : p.run s = .error e := by
  have hsim := run_simulates p hp hd h
  rw [hflat] at hsim
  exact hsim

/-! ## What is left on the device -/

/-- No cached block is modified. -/
def Clean (s : CacheSys Unit) : Prop :=
  ∀ e ∈ s.queue, ∀ c, s.cells e.2 = some c → c.modified = false

theorem Caches.device {s : CacheSys Unit} {held : List Nat} {σ : Store} (h : Caches s held σ)
    (hc : Clean s) : s.dev () = σ := by
  funext id
  exact h.device_of_clean hc () id

theorem Clean.load {s : CacheSys Unit} (h : Clean s) (id : Nat) : Clean (s.load id ()).2 := by
  intro e he c hc
  simp only [CacheSys.load, List.mem_append, List.mem_singleton] at he hc
  by_cases hnext : e.2 = s.next
  · rw [hnext, Function.update_self] at hc
    cases hc
    rfl
  · rw [Function.update_of_ne hnext] at hc
    rcases he with he | rfl
    · exact h e he c hc
    · exact absurd rfl hnext

theorem Clean.evict {s s' : CacheSys Unit} {held : List Nat} {σ : Store} (hs : Caches s held σ)
    (h : Clean s) (hev : s.evict = some s') : Clean s' := by
  obtain ⟨e, hfind, rfl⟩ := Option.map_eq_some_iff.mp hev
  have he := List.mem_of_find?_eq_some hfind
  obtain ⟨c, hc, -⟩ := hs.cell e he
  intro e' he' c' hc'
  simp only [CacheSys.free, Shadows.sync_with_queue, Shadows.sync_clean hc (h e he c hc)] at he' hc'
  by_cases haddr : e'.2 = e.2
  · rw [haddr, Function.update_self] at hc'
    cases hc'
  · rw [Function.update_of_ne haddr] at hc'
    exact h e' (List.mem_of_mem_erase he') c' hc'

theorem Clean.lookup {s s' : CacheSys Unit} {held : List Nat} {σ : Store} {id a : Nat}
    (hs : Caches s held σ) (h : Clean s) (hl : s.blockCache id () = some (a, s')) : Clean s' := by
  unfold CacheSys.blockCache at hl
  split at hl
  · cases hl
    exact h
  · split at hl
    · obtain ⟨s₁, hs₁, heq⟩ := Option.map_eq_some_iff.mp hl
      cases heq
      exact (h.evict hs hs₁).load id
    · cases hl
      exact h.load id

/-- A program that writes no block leaves the cache clean. -/
theorem run_clean {p : BlockProg α} {d : Nat} {s s' : CacheSys Unit} {held : List Nat} {σ : Store}
    {a : α} (hp : p.Within false d) (hd : held.length + d ≤ BLOCK_CACHE_SIZE) (h : Caches s held σ)
    (hc : Clean s) (hrun : p.run s = .ok (a, s')) : Clean s' := by
  induction p generalizing d s s' held σ with
  | ret a =>
      cases hrun
      exact hc
  | fail e => cases hrun
  | read id body k ihb ihk =>
      obtain ⟨hpos, hb, hk⟩ := hp
      obtain ⟨a', s₁, c, hs, h₁, hcons, hiff, hcell, hcache⟩ := h.lookup (by omega) id
      simp only [run, hs, hcell] at hrun
      split at hrun
      · cases hrun
      · have hd' : (id :: held).length + (d - 1) ≤ BLOCK_CACHE_SIZE := by
          simp only [List.length_cons]
          omega
        cases hbody : (body c.cache).run s₁ with
        | error e =>
            rw [hbody] at hrun
            cases hrun
        | ok r =>
            rw [hbody] at hrun
            have hclean := ihb _ (hb _) hd' h₁ (hc.lookup h hs) hbody
            obtain ⟨σ₂, -, h₂, hh₂⟩ :=
        flat_of_run ((hb _).mono (fun _ => rfl) (Nat.le_refl _)) hd' h₁ hbody
            have hrel := (Shadows.release h₂ (by simp [hh₂, hcons] : 0 < r.2.handles.length)).1
            refine ihk _ (hk _) hd h₂.release ?_ hrun
            rw [hrel]
            exact hclean
  | modify => cases hp.1
  | syncAll => cases hp.1

/-- Every run that returns synchronises last; `b` says that the state before
is synchronised. -/
def EndsSynced : {α : Type} → BlockProg α → Bool → Prop
  | _, .ret _, b => b = true
  | _, .fail _, _ => True
  | _, .read _ _ k, _ => ∀ x, (k x).EndsSynced false
  | _, .modify _ _ k, _ => ∀ x, (k x).EndsSynced false
  | _, .syncAll k, _ => k.EndsSynced true

namespace EndsSynced

theorem of_false {p : BlockProg α} (h : p.EndsSynced false) (b : Bool) : p.EndsSynced b := by
  cases p with
  | ret a => cases h
  | fail e => trivial
  | read id body k => exact h
  | modify id body k => exact h
  | syncAll k => exact h

theorem bind {p : BlockProg α} {f : α → BlockProg β} {b : Bool}
    (h : ∀ a, (f a).EndsSynced false) : (p >>= f).EndsSynced b := by
  show (p.bind f).EndsSynced b
  induction p generalizing b with
  | ret a => exact (h a).of_false b
  | fail e => trivial
  | read id body k _ ih => exact fun x => ih x h
  | modify id body k _ ih => exact fun x => ih x h
  | syncAll k ih => exact ih h

theorem map {p : BlockProg α} {b : Bool} (g : α → β) (h : p.EndsSynced b) :
    (p >>= fun a => Pure.pure (g a)).EndsSynced b := by
  show (p.bind _).EndsSynced b
  induction p generalizing b with
  | ret a => exact h
  | fail e => trivial
  | read id body k _ ih => exact fun x => ih x _ (h x)
  | modify id body k _ ih => exact fun x => ih x _ (h x)
  | syncAll k ih => exact ih _ h

theorem sync {b : Bool} : blockCacheSyncAll.EndsSynced b := rfl

end EndsSynced

theorem EndsSynced.clean {p : BlockProg α} {b : Bool} {d : Nat} {s s' : CacheSys Unit} {σ : Store}
    {a : α} (he : p.EndsSynced b) (hp : p.Within true d) (hd : d ≤ BLOCK_CACHE_SIZE)
    (h : Caches s [] σ) (hb : b = true → Clean s) (hrun : p.run s = .ok (a, s')) : Clean s' := by
  induction p generalizing b s σ with
  | ret a =>
      cases hrun
      exact hb he
  | fail e => cases hrun
  | read id body k ihb ihk =>
      obtain ⟨hpos, hbody, hk⟩ := hp
      obtain ⟨a', s₁, c, hs, h₁, hcons, hiff, hcell, hcache⟩ := h.lookup (by simp [BLOCK_CACHE_SIZE]) id
      simp only [run, hs, hcell] at hrun
      split at hrun
      · cases hrun
      · cases hbr : (body c.cache).run s₁ with
        | error e =>
            rw [hbr] at hrun
            cases hrun
        | ok r =>
            rw [hbr] at hrun
            obtain ⟨σ₂, -, h₂, -⟩ := flat_of_run (hbody _)
              (by simp only [List.length_cons, List.length_nil]; omega) h₁ hbr
            exact ihk _ (he _) (hk _) h₂.release (by simp) hrun
  | modify id body k ihb ihk =>
      obtain ⟨-, hpos, hbody, hk⟩ := hp
      obtain ⟨a', s₁, c, hs, h₁, hcons, hiff, hcell, hcache⟩ := h.lookup (by simp [BLOCK_CACHE_SIZE]) id
      simp only [run, hs, hcell] at hrun
      split at hrun
      · cases hrun
      · cases hbr : (body c.cache).run s₁ with
        | error e =>
            rw [hbr] at hrun
            cases hrun
        | ok r =>
            rw [hbr] at hrun
            obtain ⟨σ₂, -, h₂, hh₂⟩ := flat_of_run (hbody _)
              (by simp only [List.length_cons, List.length_nil]; omega) h₁ hbr
            have hstore := h₂.store (b := r.1.2) (a := a') (by simp [hh₂, hcons])
            exact ihk _ (he _) (hk _) hstore.release (by simp) hrun
  | syncAll k ih =>
      simp only [run] at hrun
      split at hrun
      · exact ih he hp.2 (Shadows.syncAll h).1 (fun _ => Shadows.syncAll_clean h) hrun
      · cases hrun

attribute [irreducible] Within EndsSynced

end BlockProg

end Nimloth

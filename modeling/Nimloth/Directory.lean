import Mathlib.Tactic.Common
import Nimloth.FileContent

/-!
# Directories

The bytes of a directory are its entries, 32 bytes each, in the order in
which they were made. `nameAt` and `numberAt` read an entry back; on the
entries that `create_inode` writes they give what was written, up to the
first NUL of the name (`storedName`). A name of 28 bytes without a NUL
fills its field and cannot be read back at all.

Reading a directory is a function of its bytes: `lookup` is what
`find_inode_id` returns, and `resolve` what `find` does on the map of
files.
-/

namespace Nimloth

open BlockProg BlockManager

/-! ## Entries -/

/-- The inode number of the first entry of that name. -/
def lookup (bytes : List UInt8) (name : String) : Option UInt32 :=
  ((List.range (bytes.length / 32)).find? fun i => nameAt bytes i = some name).map (numberAt bytes)

/-- The names of a directory, where they can be read. -/
def namesOf (bytes : List UInt8) : List String :=
  (List.range (bytes.length / 32)).filterMap (nameAt bytes)

theorem lookup_isSome {bytes : List UInt8} {name : String} :
    (lookup bytes name).isSome ↔ Lists bytes name := by
  unfold lookup Lists
  rw [Option.isSome_map, List.find?_isSome]
  simp only [List.mem_range, decide_eq_true_eq]

theorem mem_namesOf {bytes : List UInt8} {name : String} :
    name ∈ namesOf bytes ↔ Lists bytes name := by
  unfold namesOf Lists
  simp only [List.mem_filterMap, List.mem_range]

/-- What is read back for an entry of that name. -/
def storedName (name : String) : Option String :=
  if (nameBytes name).length < 28 ∨ '\x00' ∈ name.toList then some (untilNul name) else none

/-- Names and inode numbers, as the bytes of a directory. -/
def entriesBytes (es : List (String × Nat)) : List UInt8 := es.flatMap fun e => entryBytes e.1 e.2

theorem entryBytes_eq (name : String) (g : Nat) :
    entryBytes name g = nameBytes name ++ List.replicate (28 - (nameBytes name).length) 0
      ++ leBytes 4 (UInt32.ofNat g).toNat := rfl

theorem takeWhile_nameField (name : String) :
    (nameBytes name ++ List.replicate (28 - (nameBytes name).length) 0).takeWhile (· ≠ 0)
      = nameBytes (untilNul name) := by
  have hzeros : ∀ n, (List.replicate n (0 : UInt8)).takeWhile (· ≠ 0) = [] := by
    intro n
    cases n with
    | zero => rfl
    | succ n => rw [List.replicate_succ, List.takeWhile_cons_of_neg (by simp)]
  rw [List.takeWhile_append, hzeros, List.append_nil, ← takeWhile_nameBytes]
  split
  · next heq =>
      rw [(List.takeWhile_prefix _).eq_of_length heq]
  · rfl

section Entry

variable {name : String} (hname : (nameBytes name).length ≤ 28) (g : Nat)

include hname

theorem take_entryBytes : (entryBytes name g).take 28
    = nameBytes name ++ List.replicate (28 - (nameBytes name).length) 0 := by
  have hlen : (nameBytes name ++ List.replicate (28 - (nameBytes name).length) 0).length = 28 := by
    rw [List.length_append, List.length_replicate]
    omega
  rw [entryBytes_eq, List.take_append_of_le_length hlen.ge, List.take_of_length_le hlen.le]

theorem zero_mem_nameField : 0 ∈ nameBytes name ++ List.replicate (28 - (nameBytes name).length) 0
    ↔ (nameBytes name).length < 28 ∨ '\x00' ∈ name.toList := by
  rw [List.mem_append, zero_mem_nameBytes, List.mem_replicate, or_comm]
  refine or_congr_left ?_
  constructor
  · rintro ⟨hne, -⟩
    omega
  · intro hlt
    exact ⟨by omega, rfl⟩

/-- The name is read back up to its first NUL. -/
theorem nameAt_entryBytes :
    (if 0 ∈ (entryBytes name g).take 28 then
      String.fromUTF8? ⟨(((entryBytes name g).take 28).takeWhile (· ≠ 0)).toArray⟩ else none)
        = storedName name := by
  rw [take_entryBytes hname, takeWhile_nameField, fromUTF8_nameBytes]
  unfold storedName
  simp only [zero_mem_nameField hname]

theorem number_entryBytes (hg : g < 2 ^ 32) :
    (DirEntry.ofBytes (entryBytes name g)).inodeNumber = UInt32.ofNat g := by
  have hlen : (nameBytes name ++ List.replicate (28 - (nameBytes name).length) 0).length = 28 := by
    rw [List.length_append, List.length_replicate]
    omega
  have hdrop : (entryBytes name g).drop 28 = leBytes 4 (UInt32.ofNat g).toNat := by
    rw [entryBytes_eq, List.drop_append, List.drop_eq_nil_of_le hlen.le, hlen, Nat.sub_self,
      List.drop_zero, List.nil_append]
  show UInt32.ofNat (leNat ((entryBytes name g).drop 28)) = _
  rw [hdrop, leNat_leBytes, UInt32.toNat_ofNat', Nat.mod_eq_of_lt hg, Nat.mod_eq_of_lt (by omega)]

end Entry

theorem storedName_of_no_nul {name : String} (hlen : (nameBytes name).length < 28)
    (hnul : '\x00' ∉ name.toList) : storedName name = some name := by
  rw [storedName, if_pos (.inl hlen), untilNul_of_not_mem hnul]

section Entries

variable {es : List (String × Nat)} (hes : ∀ e ∈ es, (nameBytes e.1).length ≤ 28)

include hes

theorem length_entriesBytes : (entriesBytes es).length = 32 * es.length := by
  induction es with
  | nil => rfl
  | cons e es ih =>
      have hlen : (entryBytes e.1 e.2).length = 32 :=
        length_entryBytes.mpr (hes e List.mem_cons_self)
      have hrest := ih fun e' he' => hes e' (List.mem_cons_of_mem _ he')
      unfold entriesBytes at hrest ⊢
      rw [List.flatMap_cons, List.length_append, hlen, hrest, List.length_cons]
      omega

theorem entriesBytes_slice {i : Nat} (hi : i < es.length) :
    ((entriesBytes es).drop (32 * i)).take 32 = entryBytes es[i].1 es[i].2 := by
  induction es generalizing i with
  | nil => cases hi
  | cons e es ih =>
      have hlen : (entryBytes e.1 e.2).length = 32 :=
        length_entryBytes.mpr (hes e List.mem_cons_self)
      have hcons : entriesBytes (e :: es) = entryBytes e.1 e.2 ++ entriesBytes es :=
        List.flatMap_cons
      rw [hcons]
      cases i with
      | zero =>
          rw [Nat.mul_zero, List.drop_zero, List.take_append_of_le_length hlen.ge,
            List.take_of_length_le hlen.le]
          rfl
      | succ i =>
          rw [show 32 * (i + 1) = (entryBytes e.1 e.2).length + 32 * i by omega, List.drop_append,
            List.drop_eq_nil_of_le (by omega), List.nil_append, Nat.add_sub_cancel_left]
          exact ih (fun e' he' => hes e' (List.mem_cons_of_mem _ he')) (Nat.lt_of_succ_lt_succ hi)

theorem nameAt_entriesBytes {i : Nat} (hi : i < es.length) :
    nameAt (entriesBytes es) i = storedName es[i].1 := by
  unfold nameAt
  rw [entriesBytes_slice hes hi]
  exact nameAt_entryBytes (hes _ (List.getElem_mem hi)) _

theorem numberAt_entriesBytes {i : Nat} (hi : i < es.length) (hg : es[i].2 < 2 ^ 32) :
    numberAt (entriesBytes es) i = UInt32.ofNat es[i].2 := by
  unfold numberAt
  rw [entriesBytes_slice hes hi]
  exact number_entryBytes (hes _ (List.getElem_mem hi)) _ hg

theorem lists_entriesBytes {name : String} :
    Lists (entriesBytes es) name ↔ ∃ e ∈ es, storedName e.1 = some name := by
  have hlen : (entriesBytes es).length / 32 = es.length := by
    rw [length_entriesBytes hes]
    omega
  unfold Lists
  rw [hlen]
  constructor
  · rintro ⟨i, hi, hname⟩
    rw [nameAt_entriesBytes hes hi] at hname
    exact ⟨_, List.getElem_mem hi, hname⟩
  · rintro ⟨e, he, hname⟩
    obtain ⟨i, hi, rfl⟩ := List.getElem_of_mem he
    exact ⟨i, hi, by rw [nameAt_entriesBytes hes hi, hname]⟩

theorem namesOf_entriesBytes :
    namesOf (entriesBytes es) = es.filterMap fun e => storedName e.1 := by
  have hlen : (entriesBytes es).length / 32 = es.length := by
    rw [length_entriesBytes hes]
    omega
  unfold namesOf
  rw [hlen, ← List.map_coe_finRange_eq_range, List.filterMap_map]
  conv_rhs => rw [← List.map_get_finRange es, List.filterMap_map]
  apply List.filterMap_congr
  intro i _
  exact nameAt_entriesBytes hes i.isLt

/-- Looking a name up in the bytes is looking it up in the entries. -/
theorem lookup_entriesBytes (hsmall : ∀ e ∈ es, e.2 < 2 ^ 32) (name : String) :
    lookup (entriesBytes es) name
      = (es.find? fun e => storedName e.1 = some name).map fun e => UInt32.ofNat e.2 := by
  have hlen : (entriesBytes es).length / 32 = es.length := by
    rw [length_entriesBytes hes]
    omega
  unfold lookup
  rw [hlen, ← List.map_coe_finRange_eq_range, List.find?_map]
  conv_rhs => rw [← List.map_get_finRange es, List.find?_map]
  have hname : ((fun i => decide (nameAt (entriesBytes es) i = some name))
      ∘ fun i : Fin es.length => (i : Nat))
        = (fun e : String × Nat => decide (storedName e.1 = some name)) ∘ es.get := by
    funext i
    simp only [Function.comp_apply, nameAt_entriesBytes hes i.isLt]
    rfl
  rw [hname, Option.map_map, Option.map_map]
  congr 1
  funext i
  exact numberAt_entriesBytes hes i.isLt (hsmall _ (List.getElem_mem i.isLt))

end Entries

/-! ## Reading a directory -/

namespace BlockManager

variable {mgr : BlockManager} {total ibb : Nat} {σ : Store} {f : Nat}

section Find

variable {d : DiskInode} {a : AbsFile} {held : List Nat} {E : FsErr → Prop}
  (hn : DiskInode.blockCount d.size ≤ 16539) (hheld : ∀ x ∈ blocksOf σ d, x.toNat ∉ held)
  (ha : Stores σ d a) (hE : ∀ i, i < a.bytes.length / 32 → nameAt a.bytes i = none → E .panic)

include hn hheld ha hE

/-- `find_inode_id` looks the name up. -/
theorem findInodeId_post (hdir : d.dir = true) (name : String) :
    Post E (Inode.findInodeId name d) held σ fun r σ' => σ' = σ ∧ r = lookup a.bytes name := by
  have hsize := ha.size
  have his : ∀ i ∈ List.range (d.size.toNat / DIRENT_SZ), i < a.bytes.length / 32 := by
    intro i hi
    rw [List.mem_range, hsize] at hi
    exact hi
  unfold Inode.findInodeId
  rw [Post.bind_iff, Post.assert_iff]
  refine ⟨?_, fun h => absurd hdir h⟩
  intro _
  apply (findLoop_post hn hheld ha hE name his).mono
  rintro r σ' ⟨hσ, rfl⟩
  refine ⟨hσ, ?_⟩
  rw [hsize]
  rfl

theorem lsLoop_post {is : List Nat} (his : ∀ i ∈ is, i < a.bytes.length / 32) (v : List String) :
    Post E (Inode.lsLoop d is v) held σ fun r σ' => σ' = σ
      ∧ r = v ++ is.filterMap (nameAt a.bytes) ∧ ∀ i ∈ is, nameAt a.bytes i ≠ none := by
  induction is generalizing v with
  | nil =>
      rw [Inode.lsLoop, Post.pure_iff]
      exact ⟨rfl, by simp, fun i hi => absurd hi List.not_mem_nil⟩
  | cons i is ih =>
      unfold Inode.lsLoop
      apply dirent_post hn hheld ha hE (his i List.mem_cons_self)
      intro e direntName hname _
      apply (ih (fun j hj => his j (List.mem_cons_of_mem _ hj)) _).mono
      rintro r σ' ⟨hσ, rfl, hread⟩
      refine ⟨hσ, ?_, ?_⟩
      · rw [List.filterMap_cons_some hname, List.append_assoc, List.singleton_append]
      · intro j hj
        rcases List.mem_cons.mp hj with rfl | hj
        · simp [hname]
        · exact hread j hj

end Find

/-- `ls` returns the names of a directory, if they can all be read. -/
theorem ls_post {E : FsErr → Prop} {m : AbsFs} {bytes : List UInt8} (hl : mgr.Layout total ibb)
    (hi : mgr.FsInv total ibb σ) (h : mgr.Holds total σ m) (hf : mgr.Used σ f)
    (hm : m f = some ⟨.dir, bytes⟩)
    (hE : ∀ i, i < bytes.length / 32 → nameAt bytes i = none → E .panic) :
    Post E (mgr.inode f).ls [] σ fun r σ' => σ' = σ ∧ r = namesOf bytes
      ∧ ∀ i, i < bytes.length / 32 → nameAt bytes i ≠ none := by
  obtain ⟨a, ha, hstores, -⟩ := h.used f hf
  obtain rfl : a = ⟨.dir, bytes⟩ := Option.some.inj (ha.symm.trans hm)
  have hsize := hstores.size
  have hfile : ¬ (mgr.inodeAt σ f).file = true := by
    rw [file_iff, hstores.type]
    simp
  have hrange : List.range ((mgr.inodeAt σ f).size.toNat / DIRENT_SZ)
      = List.range (bytes.length / 32) := by
    rw [hsize]
  unfold Inode.ls
  rw [readDiskInode_iff, if_neg hfile, hrange]
  apply (lsLoop_post (hi.bound f hf) (ownedBy_not_held hl hi hf) hstores hE
    (fun i hi => List.mem_range.mp hi) []).mono
  rintro r σ' ⟨hσ, rfl, hread⟩
  exact ⟨hσ, rfl, fun i hi => hread i (List.mem_range.mpr hi)⟩

end BlockManager

/-! ## Paths -/

/-- Where a path leads from file `f`: a name is looked up in a directory, and
a file has no entries. -/
def resolve (m : AbsFs) : List String → Nat → Option Nat
  | [], f => some f
  | name :: names, f =>
      match m f with
      | some ⟨.dir, bytes⟩ =>
          match lookup bytes name with
          | some id => resolve m names id.toNat
          | none => none
      | _ => none

theorem resolve_append (m : AbsFs) (names names' : List String) (f : Nat) :
    resolve m (names ++ names') f = (resolve m names f).bind (resolve m names') := by
  induction names generalizing f with
  | nil => rfl
  | cons name names ih =>
      rw [List.cons_append, resolve, resolve]
      split
      · split
        · exact ih _
        · rfl
      · rfl

/-- A regular file has nothing below it. -/
theorem resolve_file {m : AbsFs} {f : Nat} {bytes : List UInt8} (hm : m f = some ⟨.file, bytes⟩)
    {names : List String} (hne : names ≠ []) : resolve m names f = none := by
  cases names with
  | nil => exact absurd rfl hne
  | cons name names => rw [resolve, hm]

/-- The entries of every directory are those of existing files. -/
def Linked (m : AbsFs) : Prop :=
  ∀ f bytes, m f = some ⟨.dir, bytes⟩ → ∀ name id, lookup bytes name = some id →
    (m id.toNat).isSome

theorem Linked.resolve_isSome {m : AbsFs} (h : Linked m) {names : List String} {f g : Nat}
    (hf : (m f).isSome) (hg : resolve m names f = some g) : (m g).isSome := by
  induction names generalizing f with
  | nil =>
      cases hg
      exact hf
  | cons name names ih =>
      rw [resolve] at hg
      split at hg
      · next bytes hm =>
          split at hg
          · next id hid => exact ih (h f bytes hm name id hid) hg
          · cases hg
      · cases hg

/-- The names of every directory can be read. -/
def Readable (m : AbsFs) : Prop :=
  ∀ f bytes, m f = some ⟨.dir, bytes⟩ → ∀ i, i < bytes.length / 32 → nameAt bytes i ≠ none

namespace BlockManager

variable {mgr : BlockManager} {total ibb : Nat} {σ : Store} {f : Nat} {m : AbsFs}

theorem Holds.used_iff (h : mgr.Holds total σ m) : mgr.Used σ f ↔ (m f).isSome := by
  constructor
  · intro hf
    obtain ⟨a, ha, -⟩ := h.used f hf
    rw [ha]
    rfl
  · intro hm
    by_contra hf
    rw [h.unused f hf] at hm
    cases hm

theorem Holds.stores {a : AbsFile} (h : mgr.Holds total σ m) (hm : m f = some a) :
    mgr.Used σ f ∧ Stores σ (mgr.inodeAt σ f) a ∧ (a.type = .dir → 32 ∣ a.bytes.length) := by
  have hf : mgr.Used σ f := h.used_iff.mpr (by rw [hm]; rfl)
  obtain ⟨b, hb, hstores⟩ := h.used f hf
  obtain rfl : b = a := Option.some.inj (hb.symm.trans hm)
  exact ⟨hf, hstores⟩

/-- `find` resolves the path on the map. It reads the directories that the
path goes through. -/
theorem findFrom_post {E : FsErr → Prop} (hl : mgr.Layout total ibb) (hi : mgr.FsInv total ibb σ)
    (h : mgr.Holds total σ m) (hlink : Linked m) (hf : (m f).isSome) (names : List String)
    (hE : ∀ k g bytes, k < names.length → resolve m (names.take k) f = some g →
      m g = some ⟨.dir, bytes⟩ → ∀ i, i < bytes.length / 32 → nameAt bytes i = none → E .panic) :
    Post E (Inode.findFrom mgr names (mgr.inode f)) [] σ fun r σ' =>
      σ' = σ ∧ r = (resolve m names f).map mgr.inode := by
  induction names generalizing f with
  | nil =>
      rw [Inode.findFrom, Post.pure_iff]
      exact ⟨rfl, rfl⟩
  | cons name names ih =>
      obtain ⟨⟨type, bytes⟩, hm⟩ := Option.isSome_iff_exists.mp hf
      obtain ⟨hused, hstores, -⟩ := h.stores hm
      unfold Inode.findFrom
      rw [Post.bind_iff, readDiskInode_iff]
      cases type with
      | file =>
          rw [if_pos (file_iff.mpr hstores.type), Post.pure_iff, Post.pure_iff, resolve, hm]
          exact ⟨rfl, rfl⟩
      | dir =>
          have hdir : (mgr.inodeAt σ f).dir = true := dir_iff.mpr hstores.type
          have hfile : ¬ (mgr.inodeAt σ f).file = true := by
            rw [file_iff, hstores.type]
            simp
          have hnames : ∀ i, i < bytes.length / 32 → nameAt bytes i = none → E .panic := by
            exact hE 0 f bytes (Nat.succ_pos _) rfl hm
          rw [if_neg hfile]
          apply (findInodeId_post (hi.bound f hused) (ownedBy_not_held hl hi hused) hstores hnames
            hdir name).mono
          rintro r σ' ⟨rfl, rfl⟩
          dsimp only
          rw [resolve, hm]
          dsimp only
          cases hid : lookup bytes name with
          | none =>
              rw [Post.pure_iff]
              exact ⟨rfl, rfl⟩
          | some id =>
              have hsome := hlink f bytes hm name id hid
              have hlt := (h.used_iff.mpr hsome).1
              rw [Post.bind_iff, diskInodePos_iff hl hlt]
              apply ih hsome
              intro k g bytes' hk hg
              apply hE (k + 1) g bytes' (Nat.succ_lt_succ hk)
              rw [List.take_succ_cons, resolve, hm]
              dsimp only
              rw [hid]
              exact hg

theorem find_post {E : FsErr → Prop} (hl : mgr.Layout total ibb) (hi : mgr.FsInv total ibb σ)
    (h : mgr.Holds total σ m) (hlink : Linked m) (hE : ¬ Readable m → E .panic)
    (hf : (m f).isSome) (path : String) :
    Post E (Inode.find mgr (mgr.inode f) path) [] σ fun r σ' =>
      σ' = σ ∧ r = (resolve m (components path) f).map mgr.inode :=
  findFrom_post hl hi h hlink hf (components path) fun _ g bytes _ _ hm i hi hnone =>
    hE fun hread => hread g bytes hm i hi hnone

end BlockManager

end Nimloth

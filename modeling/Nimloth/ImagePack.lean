import Mathlib.Tactic.Common
import Nimloth.Durability
import Nimloth.OpenFile
import Nimloth.SplitIO

/-!
# The image of the applications

`micro_fs_pack` makes the disk that the kernel boots from: a new file
system of 16 MiB, with a file in the root for each application. What the
packer leaves on the device is all that the kernel has. `image_round_trip`
says that it is enough: the kernel lists the applications and reads each
of them as it was on the host, if its heap has room for the file. The
bound of 4095 files is the one in the comment of the packer; an
application without a byte is left out, since the packer panics on a write
of nothing.
-/

namespace Nimloth

open BlockProg BlockManager

/-! ## The packer -/

/-- A file name up to its first dot; `none` is the panic of a name without one. -/
def stem (nameWithExt : String) : Option String :=
  if '.' ∈ nameWithExt.toList then
    some (String.ofList (nameWithExt.toList.takeWhile (· ≠ '.')))
  else none

section Pack

variable (hostFile : String → Option (List UInt8))

/-- The loop over the applications. `hostFile` is what a file of the host holds. -/
def packApps (mfs : BlockManager) : List String → BlockProg Unit
  | [] => pure ()
  | app :: apps => do
      let allData ← unwrap (hostFile app)
      let inode ← Inode.createInode mfs mfs.rootInode app .file
      let inode ← unwrap inode
      let _ ← Inode.writeAt mfs inode 0 allData
      packApps mfs apps

/-- `micro_fs_pack`, for the files of the source directory in the order that `read_dir` gives. -/
def microFsPack (fileNames : List String) : BlockProg Unit := do
  let mfs ← create (16 * 2048) 1
  let apps ← unwrap (fileNames.mapM stem)
  packApps hostFile mfs apps

end Pack

/-! ## The kernel -/

section Boot

variable (heap : Nat → Bool)

/-- `open_file` with `RDONLY`, and `read_all`; the inner `none` is for a lack of fuel. -/
def loadApp (mgr : BlockManager) (fuel : Nat) (name : String) :
    BlockProg (Option (Option (List UInt8))) := do
  let found ← openFile mgr name .RDONLY
  match found with
  | none => pure none
  | some file => do
      let r ← file.readAll fuel
      match r with
      | none => pure (some none)
      | some (v, _) => do
          -- `alloc_error_handler`, called while `v` grows; what is on the disk is the same then
          assert (Granted heap v.length)
          pure (some (some v))

def loadApps (mgr : BlockManager) (fuel : Nat) :
    List String → BlockProg (List (Option (Option (List UInt8))))
  | [] => pure []
  | name :: names => do
      let r ← loadApp heap mgr fuel name
      let rs ← loadApps mgr fuel names
      pure (r :: rs)

/-- The kernel with the device: `ROOT_INODE`, `list_apps`, and the programs that it loads. -/
def bootLoads (fuel : Nat) (names : List String) :
    BlockProg (List String × List (Option (Option (List UInt8)))) := do
  let mfs ← BlockManager.open
  let apps ← mfs.rootInode.ls
  let loaded ← loadApps heap mfs fuel names
  pure (apps, loaded)

end Boot

/-! ## What fits -/

section Fit

variable (hostFile : String → Option (List UInt8))

def appSize (app : String) : Nat := ((hostFile app).getD []).length

/-- The blocks of the applications and of the directory that lists them. -/
def imageBlocks (apps : List String) : Nat :=
  fileBlocks (32 * apps.length) + (apps.map fun app => fileBlocks (appSize hostFile app)).sum

/-- The applications can be stored in the image. -/
structure Packable (apps : List String) : Prop where
  plain : ∀ app ∈ apps, PlainName app
  nodup : apps.Nodup
  count : apps.length ≤ 4095
  host : ∀ app ∈ apps, ∃ data, hostFile app = some data ∧ data ≠ []
    ∧ data.length ≤ INDIRECT2_BOUND * BLOCK_SZ
  room : imageBlocks hostFile apps ≤ 31734

end Fit

/-! ## The image as it grows -/

theorem returns_of_flat {α : Type} {p : BlockProg α} {held : List Nat} {σ σ' : Store} {a : α}
    (h : p.flat held σ = .ok (a, σ')) : Returns p held σ fun b σ'' => b = a ∧ σ'' = σ' := by
  rw [Returns, Post, h]
  exact ⟨rfl, rfl⟩

section Blocks

variable {hostFile : String → Option (List UInt8)}

theorem imageBlocks_append (apps : List String) (app : String) :
    imageBlocks hostFile (apps ++ [app]) + fileBlocks (32 * apps.length)
      = imageBlocks hostFile apps + fileBlocks (32 * (apps.length + 1))
        + fileBlocks (appSize hostFile app) := by
  simp only [imageBlocks, List.length_append, List.length_singleton, List.map_append,
    List.map_singleton, List.sum_append, List.sum_singleton]
  omega

theorem imageBlocks_le (apps rest : List String) :
    imageBlocks hostFile apps ≤ imageBlocks hostFile (apps ++ rest) := by
  have hmono := @fileBlocks_mono (32 * apps.length) (32 * (apps ++ rest).length) (by simp)
  simp only [imageBlocks, List.map_append, List.sum_append]
  omega

end Blocks

/-- The files `m` of the image: the root with the entries `es`, and what they lead to. -/
structure Packed (hostFile : String → Option (List UInt8)) (mgr : BlockManager) (σ : Store)
    (m : AbsFs) (bytes : List UInt8) (es : List (String × Nat)) : Prop where
  mounted : mgr.Mounted 32768 1 (fun _ => PlainName) σ m
  root : m 0 = some ⟨.dir, bytes⟩
  dir : DirOk PlainName m bytes es
  files : ∀ e ∈ es, ∃ data, hostFile e.1 = some data ∧ m e.2 = some ⟨.file, data⟩
  only : ∀ g, (m g).isSome → g = 0 ∨ g ∈ es.map Prod.snd
  room : 31734 ≤ mgr.room 32768 σ + imageBlocks hostFile (es.map Prod.fst)

namespace Packed

variable {hostFile : String → Option (List UInt8)} {mgr : BlockManager} {σ σ' : Store} {m : AbsFs}
  {bytes data : List UInt8} {es : List (String × Nat)} {app : String} {apps : List String}
  {heap : Nat → Bool}

/-- The disk as it is created. -/
theorem created (h : mgr.Created 32768 1 σ) : Packed hostFile mgr σ AbsFs.start [] [] where
  mounted := .created h
  root := rfl
  dir := .empty ..
  files _ he := absurd he List.not_mem_nil
  only g hg := by
    unfold AbsFs.start at hg
    split at hg
    · next hzero => exact Or.inl hzero
    · cases hg
  room := by
    have hbits : mgr.dataBitmap.blocks = 8 := by rw [h.layout.dataBitmap]
    have harea := h.layout.dataArea
    have hroom : 31734 ≤ mgr.room 32768 σ := h.le_room (by omega) (by omega)
    exact Nat.le_add_right_of_le hroom

theorem size (h : Packed hostFile mgr σ m bytes es) :
    (mgr.inodeAt σ 0).size.toNat = 32 * es.length := by
  rw [(h.mounted.size h.root).1, h.dir.bytes, length_entriesBytes h.dir.fits]

/-- There is an inode and a place in the root for one more application. -/
theorem accepts (h : Packed hostFile mgr σ m bytes es) (hl : mgr.Layout 32768 1)
    (hcount : es.length < 4095)
    (hroom : imageBlocks hostFile (es.map Prod.fst) + fileBlocks (32 * (es.length + 1))
      ≤ 31734 + fileBlocks (32 * es.length)) : mgr.Accepts 32768 σ 0 := by
  have hsize := h.size
  have hnext : 32 * es.length / 32 * 32 + 32 = 32 * (es.length + 1) := by omega
  refine ⟨?_, ?_, ?_⟩
  · refine h.mounted.exists_free hl (0 :: es.map Prod.snd) ?_ ?_
    · intro g hg
      exact List.mem_cons.mpr (h.only g hg)
    · rw [List.length_cons, List.length_map]
      omega
  · rw [hsize, hnext]
    exact (Nat.mul_le_mul_left 32 hcount).trans (by decide)
  · have hroom' := h.room
    rw [hsize, hnext, blocksFor_eq (by omega) hsize]
    omega

/-- One application more. -/
theorem append (h : Packed hostFile mgr σ m bytes es) {g : Nat} (hg : g < 2 ^ 32)
    (hfree : m g = none) (hname : PlainName app) (hnew : ¬ Lists bytes app)
    (hdata : hostFile app = some data)
    (hmounted : mgr.Mounted 32768 1 (fun _ => PlainName) σ' (Function.update (Function.update
      (Function.update m g (some ⟨.file, []⟩)) 0 (some ⟨.dir, bytes ++ entryBytes app g⟩)) g
        (some ⟨.file, data⟩)))
    (hroom : 31734 ≤ mgr.room 32768 σ' + imageBlocks hostFile ((es ++ [(app, g)]).map Prod.fst)) :
    ∃ m', Packed hostFile mgr σ' m' (bytes ++ entryBytes app g) (es ++ [(app, g)]) := by
  have hne : g ≠ 0 := h.mounted.dirs.ne_root hfree
  have hlong := hname.length
  refine ⟨_, hmounted, ?_, ?_, ?_, ?_, hroom⟩
  · rw [Function.update_of_ne hne.symm, Function.update_self]
  · exact (h.dir.create .file hfree h.root hname (by omega) hg hne hnew).mono fun k hk =>
      isSome_file hk
  · intro e he
    rcases List.mem_append.mp he with he | he
    · obtain ⟨bs, hbs, hm⟩ := h.files e he
      have hother : e.2 ≠ g := by
        intro heq
        rw [heq, hfree] at hm
        cases hm
      have hchild := (h.dir.entries e he).child
      refine ⟨bs, hbs, ?_⟩
      rw [Function.update_of_ne hother, Function.update_of_ne hchild, Function.update_of_ne hother]
      exact hm
    · rw [List.mem_singleton.mp he]
      exact ⟨data, hdata, Function.update_self ..⟩
  · intro k hk
    rw [List.map_append, List.mem_append]
    by_cases hkg : k = g
    · rw [hkg]
      exact Or.inr (Or.inr List.mem_cons_self)
    · by_cases hk0 : k = 0
      · exact Or.inl hk0
      · rw [Function.update_of_ne hkg, Function.update_of_ne hk0, Function.update_of_ne hkg] at hk
        rcases h.only k hk with hzero | hmem
        · exact Or.inl hzero
        · exact Or.inr (Or.inl hmem)

/-- The loop packs what fits, and does not panic. -/
theorem packApps_returns (h : Packed hostFile mgr σ m bytes es) (hl : mgr.Layout 32768 1)
    (hp : Packable hostFile (es.map Prod.fst ++ apps)) :
    Returns (packApps hostFile mgr apps) [] σ fun _ σ' => ∃ m' bytes' es',
      Packed hostFile mgr σ' m' bytes' es' ∧ es'.map Prod.fst = es.map Prod.fst ++ apps := by
  induction apps generalizing σ m bytes es with
  | nil =>
      rw [Returns, packApps, Post.pure_iff]
      exact ⟨m, bytes, es, h, (List.append_nil _).symm⟩
  | cons app apps ih =>
      have hmem : app ∈ es.map Prod.fst ++ app :: apps :=
        List.mem_append_right _ List.mem_cons_self
      have hplain := hp.plain app hmem
      have hlong := hplain.length
      obtain ⟨data, hdata, hne, hlen⟩ := hp.host app hmem
      have hlen' : data.length ≤ 16539 * 512 := hlen
      have hsize : appSize hostFile app = data.length := by rw [appSize, hdata, Option.getD_some]
      have hnotin : app ∉ es.map Prod.fst := fun hin =>
        (List.nodup_append.mp hp.nodup).2.2 app hin app List.mem_cons_self rfl
      have hcount := hp.count
      rw [List.length_append, List.length_map, List.length_cons] at hcount
      -- what the image needs with this application
      have hprefix := @imageBlocks_le hostFile (es.map Prod.fst ++ [app]) apps
      rw [List.append_assoc, List.singleton_append] at hprefix
      have hnext := @imageBlocks_append hostFile (es.map Prod.fst) app
      rw [List.length_map, hsize] at hnext
      have htotal := hp.room
      have hacc := h.accepts hl (by omega) (by omega)
      have hdir : (mgr.inodeAt σ 0).dir = true := dir_iff.mpr (h.mounted.size h.root).2
      unfold packApps
      rw [Returns, Post.bind_iff, hdata, Post.unwrap_some, Post.bind_iff]
      apply (h.mounted.createInode hl (by decide) h.root hplain .file
        (hacc.faults hdir fun hlt => by omega)
        (fun i hi hnone => h.dir.nameAt_ne_none hi hnone) hacc.room).mono
      rintro (_ | ino) σ₁ hpost
      · exact absurd (h.dir.lists.mp hpost.2) hnotin
      · obtain ⟨hnew, g, rfl, hfree, hg, -, h₁, hroom₁⟩ := hpost
        have hm₁ := @update_create _ bytes _ _ app .file hfree h.root
        have hempty : (mgr.inodeAt σ₁ g).size.toNat = 0 := (h₁.size hm₁).1
        have hroom := h.room
        have hzero : fileBlocks 0 = 0 := by decide
        have hneed := @blocksFor_eq (mgr.inodeAt σ₁ g) 0 (0 + data.length) (by omega) hempty
        rw [hzero, Nat.zero_add, Nat.sub_zero] at hneed
        have hround : 32 * es.length / 32 * 32 + 32 = 32 * (es.length + 1) := by omega
        have hgrow := @fileBlocks_mono (32 * es.length) (32 * (es.length + 1)) (by omega)
        rw [h.size, hround, blocksFor_eq (by omega) h.size] at hroom₁
        have hroom₂ : blocksFor (mgr.inodeAt σ₁ g) (UInt32.ofNat (0 + data.length))
            ≤ mgr.room 32768 σ₁ := by
          rw [Nat.zero_add, hneed]
          omega
        rw [Post.bind_iff, Post.unwrap_some, Post.bind_iff]
        apply (h₁.writeAt hl hm₁ (by omega)
          (h₁.writeFaults hm₁ (fun hat => hne hat.1) (by rw [Nat.zero_add]; exact hlen) hroom₂)
          hroom₂).mono
        rintro _ σ₂ ⟨-, h₂, hroom₃⟩
        have hwhole : overwrite [] 0 data = data := by simp [overwrite]
        rw [hwhole] at h₂
        rw [Nat.zero_add, hneed] at hroom₃
        obtain ⟨m', h'⟩ := h.append hg hfree hplain hnew hdata h₂ (by
          rw [List.map_append, List.map_singleton]
          dsimp only
          omega)
        have hnames : (es ++ [(app, g)]).map Prod.fst ++ apps = es.map Prod.fst ++ app :: apps := by
          rw [List.map_append, List.map_singleton, List.append_assoc, List.singleton_append]
        have hrest := ih h' (by rw [hnames]; exact hp)
        rw [hnames] at hrest
        exact hrest

theorem readable (h : Packed hostFile mgr σ m bytes es) : Readable m :=
  h.mounted.dirs.readable fun _ name (hname : PlainName name) => by
    rw [hname.stored]
    exact Option.some_ne_none name

/-- An application is opened, and all of it is read. -/
theorem loadApp_returns (h : Packed hostFile mgr σ m bytes es) (hl : mgr.Layout 32768 1)
    (happ : app ∈ es.map Prod.fst) (hgranted : Granted heap (appSize hostFile app)) {fuel : Nat}
    (hfuel : appSize hostFile app < fuel) :
    Returns (loadApp heap mgr fuel app) [] σ fun r σ' => σ' = σ ∧ r = some (hostFile app) := by
  obtain ⟨e₀, he₀, rfl⟩ := List.mem_map.mp happ
  have hplain := (h.dir.entries e₀ he₀).name
  -- the entry that the lookup finds has the name
  obtain ⟨id, hid⟩ := Option.isSome_iff_exists.mp (lookup_isSome.mpr (h.dir.lists.mpr happ))
  obtain ⟨e, he, hstored, hnat⟩ := h.dir.lookup_some hid
  rw [(h.dir.entries e he).name.stored, Option.some.injEq] at hstored
  obtain ⟨data, hdata, hm⟩ := h.files e he
  rw [hstored] at hdata
  rw [appSize, hdata, Option.getD_some] at hfuel hgranted
  have hresolve : resolve m (components e₀.1) 0 = some e.2 := by
    rw [hplain.components, resolve, h.root]
    dsimp only
    rw [hid]
    dsimp only
    rw [resolve, hnat]
  rw [Returns, loadApp, Post.bind_iff]
  apply (h.mounted.openFile_rdonly hl fun hno => hno h.readable).mono
  rintro _ σ' ⟨rfl, rfl⟩
  rw [hresolve, Option.map_some]
  dsimp only
  rw [Post.bind_iff]
  apply (h.mounted.readAllLoop hl hm (Nat.zero_le _) hfuel).mono
  rintro _ σ' ⟨rfl, rfl⟩
  dsimp only
  rw [List.nil_append, List.drop_zero, Post.bind_iff, Post.assert_iff]
  refine ⟨fun _ => ?_, fun hno => absurd hgranted hno⟩
  rw [Post.pure_iff, hdata]
  exact ⟨rfl, rfl⟩

/-- There is no other file. -/
theorem loadApp_none (h : Packed hostFile mgr σ m bytes es) (hl : mgr.Layout 32768 1)
    (hname : PlainName app) (happ : app ∉ es.map Prod.fst) {fuel : Nat} :
    Returns (loadApp heap mgr fuel app) [] σ fun r σ' => σ' = σ ∧ r = none := by
  have hresolve : resolve m (components app) 0 = none := by
    have hnone : Nimloth.lookup bytes app = none := by
      rw [← Option.not_isSome_iff_eq_none, lookup_isSome, h.dir.lists]
      exact happ
    rw [hname.components, resolve, h.root]
    dsimp only
    rw [hnone]
  rw [Returns, loadApp, Post.bind_iff]
  apply (h.mounted.openFile_rdonly hl fun hno => hno h.readable).mono
  rintro _ σ' ⟨rfl, rfl⟩
  rw [hresolve, Option.map_none]
  dsimp only
  exact Post.pure_iff.mpr ⟨rfl, rfl⟩

theorem loadApps_returns (h : Packed hostFile mgr σ m bytes es) (hl : mgr.Layout 32768 1)
    (hgranted : ∀ app ∈ es.map Prod.fst, Granted heap (appSize hostFile app)) {fuel : Nat}
    (hfuel : ∀ app ∈ es.map Prod.fst, appSize hostFile app < fuel)
    {names : List String} (hnames : ∀ name ∈ names, PlainName name) :
    Returns (loadApps heap mgr fuel names) [] σ fun rs σ' => σ' = σ
      ∧ rs = names.map fun name =>
        if name ∈ es.map Prod.fst then some (hostFile name) else none := by
  induction names with
  | nil => exact Post.pure_iff.mpr ⟨rfl, rfl⟩
  | cons name names ih =>
      have hload : Returns (loadApp heap mgr fuel name) [] σ fun r σ' => σ' = σ
          ∧ r = if name ∈ es.map Prod.fst then some (hostFile name) else none := by
        by_cases hmem : name ∈ es.map Prod.fst
        · rw [if_pos hmem]
          exact h.loadApp_returns hl hmem (hgranted name hmem) (hfuel name hmem)
        · rw [if_neg hmem]
          exact h.loadApp_none hl (hnames name List.mem_cons_self) hmem
      rw [Returns, loadApps, Post.bind_iff]
      apply hload.mono
      rintro _ σ' ⟨rfl, rfl⟩
      rw [Post.bind_iff]
      apply (ih fun other hother => hnames other (List.mem_cons_of_mem _ hother)).mono
      rintro _ σ' ⟨rfl, rfl⟩
      exact Post.pure_iff.mpr ⟨rfl, rfl⟩

theorem bootLoads_returns (h : Packed hostFile mgr σ m bytes es) (hl : mgr.Layout 32768 1)
    (hgranted : ∀ app ∈ es.map Prod.fst, Granted heap (appSize hostFile app)) {fuel : Nat}
    (hfuel : ∀ app ∈ es.map Prod.fst, appSize hostFile app < fuel)
    {names : List String} (hnames : ∀ name ∈ names, PlainName name) :
    Returns (bootLoads heap fuel names) [] σ fun r _ => r = (es.map Prod.fst,
      names.map fun name => if name ∈ es.map Prod.fst then some (hostFile name) else none) := by
  have hopen := open_spec hl h.mounted.inv.described List.not_mem_nil
  have hls := h.mounted.ls_plain hl h.root h.dir
  rw [Returns, bootLoads, Post.bind_iff]
  apply (returns_of_flat hopen).mono
  rintro _ σ' ⟨rfl, rfl⟩
  rw [Post.bind_iff]
  apply (returns_of_flat hls).mono
  rintro _ σ' ⟨rfl, rfl⟩
  rw [Post.bind_iff]
  apply (h.loadApps_returns hl hgranted hfuel hnames).mono
  rintro _ σ' ⟨rfl, rfl⟩
  exact Post.pure_iff.mpr rfl

end Packed

/-! ## On the cache and the device -/

section Cache

variable {hostFile : String → Option (List UInt8)} {heap : Nat → Bool} {mgr : BlockManager}
  {s s' : CacheSys Unit} {σ : Store} {apps : List String}

theorem packApps_within (mgr : BlockManager) (apps : List String) :
    (packApps hostFile mgr apps).Within true 4 := by
  induction apps with
  | nil => exact .pure _
  | cons app apps ih =>
      exact .bind .unwrap fun _ => .bind (Inode.createInode_within ..) fun _ =>
        .bind .unwrap fun _ => .bind (Inode.writeAt_within ..) fun _ => ih

theorem microFsPack_within (fileNames : List String) :
    (microFsPack hostFile fileNames).Within true 4 :=
  .bind ((create_within ..).lift (by decide)) fun mfs =>
    .bind .unwrap fun apps => packApps_within mfs apps

theorem openFile_within (mgr : BlockManager) (name : String) (flags : OpenFlags) :
    (openFile mgr name flags).Within true 4 := by
  have hfind := (Inode.find_within mgr mgr.rootInode name).lift (show 2 ≤ 4 by decide)
  have hclear := fun ino => (Inode.clear_within mgr ino).lift (show 3 ≤ 4 by decide)
  unfold openFile
  dsimp only
  split
  · refine .bind hfind fun found => ?_
    cases found with
    | none => exact .bind (Inode.createInode_within ..) fun _ => .pure _
    | some ino => exact .bind (hclear ino) fun _ => .pure _
  · refine .bind hfind fun found => ?_
    cases found with
    | none => exact .pure _
    | some ino =>
        dsimp only
        split
        · exact .bind (hclear ino) fun _ => .pure _
        · exact .pure _

theorem readAllLoop_within (fuel : Nat) (file : OSInode) (v : List UInt8) :
    (OSInode.readAllLoop fuel file v).Within true 4 := by
  induction fuel generalizing file v with
  | zero => exact .pure _
  | succ fuel ih =>
      refine .bind ((file.inode.readAt_within ..).lift (by decide)) fun buffer => ?_
      split
      · exact .pure _
      · exact .bind .add fun _ => ih _ _

theorem loadApps_within (mgr : BlockManager) (fuel : Nat) (names : List String) :
    (loadApps heap mgr fuel names).Within true 4 := by
  induction names with
  | nil => exact .pure _
  | cons name names ih =>
      refine .bind (.bind (openFile_within ..) fun found => ?_) fun _ => .bind ih fun _ => .pure _
      cases found with
      | none => exact .pure _
      | some file =>
          refine .bind (readAllLoop_within ..) fun r => ?_
          cases r with
          | none => exact .pure _
          | some _ => exact .bind .assert fun _ => .pure _

theorem bootLoads_within (fuel : Nat) (names : List String) :
    (bootLoads heap fuel names).Within true 4 :=
  .bind (open_within.lift (by decide)) fun mfs =>
    .bind (mfs.rootInode.ls_within.lift (by decide)) fun _ =>
      .bind (loadApps_within ..) fun _ => .pure _

theorem run_bind_ok {α β : Type} {p : BlockProg α} {f : α → BlockProg β} {b : β}
    (h : (p >>= f).run s = .ok (b, s')) :
    ∃ a s₁, p.run s = .ok (a, s₁) ∧ (f a).run s₁ = .ok (b, s') := by
  rw [run_bind] at h
  split at h
  · cases h
  · next a s₁ hp => exact ⟨a, s₁, hp, h⟩

theorem run_unwrap_ok {α : Type} {o : Option α} {a : α} (h : (unwrap o).run s = .ok (a, s')) :
    o = some a ∧ s' = s := by
  cases o with
  | none => cases h
  | some _ =>
      cases h
      exact ⟨rfl, rfl⟩

/-- The packer leaves nothing in the cache alone. -/
theorem packApps_clean (h : Caches s [] σ) (hc : Clean s)
    (hrun : (packApps hostFile mgr apps).run s = .ok ((), s')) : Clean s' := by
  induction apps generalizing s σ with
  | nil =>
      cases hrun
      exact hc
  | cons app apps ih =>
      obtain ⟨data, s₁, hread, hrun₁⟩ := run_bind_ok hrun
      obtain ⟨-, rfl⟩ := run_unwrap_ok hread
      obtain ⟨r, s₂, hcreate, hrun₂⟩ := run_bind_ok hrun₁
      obtain ⟨σ₂, -, h₂, -⟩ := flat_of_run (Inode.createInode_within ..) (by decide) h hcreate
      obtain ⟨ino, s₃, hino, hrun₃⟩ := run_bind_ok hrun₂
      obtain ⟨-, rfl⟩ := run_unwrap_ok hino
      obtain ⟨n, s₄, hwrite, hrun₄⟩ := run_bind_ok hrun₃
      obtain ⟨σ₄, -, h₄, -⟩ := flat_of_run (Inode.writeAt_within ..) (by decide) h₂ hwrite
      exact ih h₄ (Inode.writeAt_clean h₂ hwrite) hrun₄

theorem microFsPack_clean {fileNames : List String} (h : Caches s [] σ)
    (hrun : (microFsPack hostFile fileNames).run s = .ok ((), s')) : Clean s' := by
  obtain ⟨mfs, s₁, hcreate, hrun₁⟩ := run_bind_ok hrun
  obtain ⟨σ₁, -, h₁, -⟩ := flat_of_run (create_within ..) (by decide) h hcreate
  obtain ⟨names, s₂, hnames, hrun₂⟩ := run_bind_ok hrun₁
  obtain ⟨-, rfl⟩ := run_unwrap_ok hnames
  exact packApps_clean h₁ (create_clean h hcreate) hrun₂

end Cache

/-- Applications that fit are packed. The kernel that has nothing but the device, and room on its
    heap, lists them all and loads each as it was on the host, in whatever order and how often, and
    nothing else. -/
theorem image_round_trip {hostFile : String → Option (List UInt8)} {fileNames apps : List String}
    (hstems : fileNames.mapM stem = some apps) (hp : Packable hostFile apps) (dev : Nat → Block) :
    ∃ c, (microFsPack hostFile fileNames).run (CacheSys.init fun _ => dev) = .ok ((), c)
      ∧ ∀ heap fuel names, (∀ app ∈ apps, Granted heap (appSize hostFile app)) →
        (∀ app ∈ apps, appSize hostFile app < fuel) → (∀ name ∈ names, PlainName name) →
        ∃ s, (bootLoads heap fuel names).run (CacheSys.init c.dev) = .ok ((apps,
          names.map fun name => if name ∈ apps then some (hostFile name) else none), s) := by
  obtain ⟨mgr, σ, hcreate, hc⟩ := @create_returns (16 * 2048) 1 (by decide) (by decide)
    (by decide) dev
  have htotal : ((16 : UInt32) * 2048).toNat = 32768 := by decide
  have hone : (1 : UInt32).toNat = 1 := by decide
  rw [htotal, hone] at hc
  have hpacked : Packed hostFile mgr σ AbsFs.start [] [] := .created hc
  have hpack : Returns (microFsPack hostFile fileNames) [] dev fun _ σ' => ∃ m bytes es,
      Packed hostFile mgr σ' m bytes es ∧ es.map Prod.fst = apps := by
    have hrest : Returns (packApps hostFile mgr apps) [] σ _ :=
      hpacked.packApps_returns hc.layout (by rw [List.map_nil, List.nil_append]; exact hp)
    rw [List.map_nil, List.nil_append] at hrest
    rw [Returns, microFsPack, Post.bind_iff]
    apply (returns_of_flat hcreate).mono
    rintro _ σ' ⟨rfl, rfl⟩
    rw [hstems, Post.bind_iff, Post.unwrap_some]
    exact hrest
  obtain ⟨_, σ', hflat, m, bytes, es, h, hnames⟩ := hpack.exists_ok
  have hinit : Caches (CacheSys.init fun _ => dev) [] dev := Shadows.init _
  obtain ⟨c, hrun, hcaches⟩ := run_of_flat (microFsPack_within fileNames) (by decide) hinit hflat
  refine ⟨c, hrun, fun heap fuel names hgranted hfuel hplain => ?_⟩
  -- the kernel starts with an empty cache
  have hdev : c.dev = fun _ => σ' := funext fun _ => hcaches.device (microFsPack_clean hinit hrun)
  have hboot : Caches (CacheSys.init c.dev) [] σ' := by
    have hshadow := Shadows.init c.dev
    rw [hdev] at hshadow ⊢
    exact hshadow
  rw [← hnames] at hgranted hfuel ⊢
  obtain ⟨_, σ'', hloads, rfl⟩ := (h.bootLoads_returns hc.layout hgranted hfuel hplain).exists_ok
  obtain ⟨s, hs, -⟩ := run_of_flat (bootLoads_within fuel names) (by decide) hboot hloads
  exact ⟨s, hs⟩

/-- Two applications of one byte; the kernel loads the second one and a file that is not there. -/
theorem image_round_trip_two : ∃ c,
    (microFsPack (fun _ => some [0x7f]) ["initproc.rs", "user_shell.rs"]).run
      (CacheSys.init fun _ _ => Block.zero) = .ok ((), c)
    ∧ ∃ s, (bootLoads (fun size => size ≤ 0x100000) 2 ["user_shell", "cat"]).run
        (CacheSys.init c.dev)
      = .ok ((["initproc", "user_shell"], [some (some [0x7f]), none]), s) := by
  have hstems : ["initproc.rs", "user_shell.rs"].mapM stem = some ["initproc", "user_shell"] := by
    decide
  have hshell : PlainName "user_shell" := by decide
  have hp : Packable (fun _ => some [0x7f]) ["initproc", "user_shell"] := by
    refine ⟨List.forall_mem_cons.mpr ⟨by decide, List.forall_mem_singleton.mpr hshell⟩, by decide,
      by decide, fun _ _ => ⟨_, rfl, List.cons_ne_nil _ _, ?_⟩, ?_⟩
    · decide
    · decide
  obtain ⟨c, hrun, hboot⟩ := image_round_trip hstems hp fun _ => Block.zero
  obtain ⟨s, hs⟩ := hboot (fun size => size ≤ 0x100000) 2 ["user_shell", "cat"]
    (fun _ _ => Granted.of_le (show max 8 (2 * 1) ≤ 0x100000 by decide))
    (fun _ _ => Nat.lt_succ_self 1)
    (List.forall_mem_cons.mpr ⟨hshell, List.forall_mem_singleton.mpr (by decide)⟩)
  exact ⟨c, hrun, s, hs⟩

end Nimloth

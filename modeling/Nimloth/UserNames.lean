import Nimloth.OpenFile
import Nimloth.SysExec

/-!
# Strings of a process, and where they go

`sys_open` hands the string that it reads to `open_file`, which may create
a file of that name; `sys_exec` pushes the strings that it reads to the new
stack. What arrives there is what was read, so the bytes arrive unchanged
if they are ASCII. And a name of 28 bytes is entered, but not read back.
-/

namespace Nimloth

open BlockProg BlockManager Outcome PageTable MemorySet

/-! ## Names that `ls` lists -/

/-- If `open_file` creates a file under `str` where the root can be listed, `ls` lists it next to
    the names from before, under the bytes `bs`. -/
def ListedAs (str : String) (bs : List UInt8) : Prop :=
  ∀ (total ibb : UInt32) (mgr : BlockManager) (σ₀ σ : Store) (tr : List FsEvent) (s : FsState),
    ibb.toNat * 4096 ≤ 2 ^ 32 → (create total ibb).flat [] σ₀ = .ok (mgr, σ) →
    Runs (RangeStep mgr total.toNat) (mgr.start σ) tr s →
    ∀ names flags file σ', mgr.rootInode.ls.flat [] s.store = .ok (names, s.store) →
      (Inode.find mgr mgr.rootInode str).flat [] s.store = .ok (none, s.store) →
      (openFile mgr str flags).flat [] s.store = .ok (some file, σ') → mgr.OnDisk total.toNat σ' →
      ∃ listed, nameBytes listed = bs
        ∧ mgr.rootInode.ls.flat [] σ' = .ok (names ++ [listed], σ')

section Listed

variable {str : String} (hnul : '\x00' ∉ str.toList)

include hnul

/-- A name is listed as it is, unless it is one of 28 bytes that does not lead to the root. -/
theorem listedAs_nameBytes (hfull : (nameBytes str).length = 28 → components str = []) :
    ListedAs str (nameBytes str) := by
  intro total ibb mgr σ₀ σ tr s hfit hcreate hrun names flags file σ' hls hfind hopen hdisk
  have hc := created_of_create (by omega) hcreate
  have hl := hc.layout
  obtain ⟨-, m, h⟩ := Mounted.runInRange hc hfit hrun
  obtain ⟨bytes, hroot⟩ := h.dirs.root
  have hlisted : Ensures mgr.rootInode.ls [] s.store _ :=
    ls_post hl h.inv h.holds (h.used hroot) hroot fun _ _ _ => trivial
  obtain ⟨-, rfl, hread⟩ := hlisted.ok hls
  have hfound : Ensures (Inode.find mgr mgr.rootInode str) [] s.store _ :=
    find_post hl h.inv h.holds h.dirs.linked (fun _ => trivial) (f := 0) (by rw [hroot]; rfl) str
  obtain ⟨-, hres⟩ := hfound.ok hfind
  have hpath : components str ≠ [] := by
    intro hnil
    rw [hnil] at hres
    cases hres
  -- the call goes through `create`
  have hcall : Ensures (openFile mgr str flags) [] s.store fun r σ' => r.isSome →
      ∃ ino, (Inode.createInode mgr mgr.rootInode str .file).flat [] s.store
        = .ok (some ino, σ') := by
    rw [Ensures, openFile_none hfind]
    split
    · refine (Post.self fun _ => trivial).mono ?_
      rintro (_ | ino) σ' hcreated
      · simp
      · exact fun _ => ⟨ino, hcreated⟩
    · simp
  obtain ⟨ino, hcreated⟩ := hcall.ok hopen rfl
  obtain ⟨g, hfree, hg, hfits, hnew, h'⟩ := h.create_ok hl hfit hroot trivial hcreated hdisk
  have hstored : storedName str = some str :=
    storedName_of_no_nul (by have := mt hfull hpath; omega) hnul
  exact ⟨str, rfl, h.ls_created hl hroot hread trivial hstored hfree hg hfits hnew h'⟩

/-- A name of 28 bytes that is new is entered, and nothing is listed any more. -/
theorem not_listedAs_full (hlen : (nameBytes str).length = 28) (hpath : components str ≠ [])
    (bs : List UInt8) : ¬ ListedAs str bs := by
  intro hlisted
  obtain ⟨mgr, σ, hcreate, hc⟩ := @create_returns 5123 1 (by decide) (by decide) (by decide)
    fun _ => Block.zero
  have h : mgr.Mounted 5123 1 (fun _ _ => True) σ AbsFs.start := .created hc
  have hstart : mgr.Mounted 5123 1 (fun _ name => Storable name) σ AbsFs.start := .created hc
  have hread : Readable AbsFs.start :=
    hstart.dirs.readable fun _ name hname => by simp [hname.stored]
  have hroot : AbsFs.start 0 = some ⟨.dir, []⟩ := rfl
  have hacc : mgr.Accepts 5123 σ 0 := hc.accepts (by decide)
  obtain ⟨ino, σ', hrun, hpanic⟩ := h.create_full hc.layout hroot (by decide) hacc
    (hread 0 [] hroot) .file hlen hnul
  have hdisk : mgr.OnDisk 5123 σ' := by
    have hcreated := (h.createInode hc.layout (by decide) hroot trivial .file
      (.any mgr 5123 σ 0 str) (fun _ _ _ => trivial) hacc.room).ok hrun
    obtain ⟨-, g, -, -, -, -, h', -⟩ := hcreated
    exact h'.disk
  have hfind := h.find_root hc.layout hread str
  have hnone : resolve AbsFs.start (components str) 0 = none := by
    cases hcomp : components str with
    | nil => exact absurd hcomp hpath
    | cons c cs => rfl
  rw [hnone] at hfind
  have hflag : OpenFlags.CREATE.contains .CREATE = true := by decide
  have hcall : (Inode.createInode mgr mgr.rootInode str .file).flat [] σ = .ok (some ino, σ') :=
    hrun
  have hopen : Returns (openFile mgr str .CREATE) [] σ fun r σ₁ => r.isSome ∧ σ₁ = σ' := by
    rw [Returns, openFile_none hfind, if_pos hflag]
    exact Post.of_ok hcall ⟨rfl, rfl⟩
  obtain ⟨r, _, hopen, hsome, rfl⟩ := hopen.exists_ok
  obtain ⟨file, rfl⟩ := Option.isSome_iff_exists.mp hsome
  obtain ⟨listed, -, hls⟩ := hlisted 5123 1 mgr _ σ [] (mgr.start σ) (by decide) hcreate (.nil _)
    _ .CREATE file _ (h.ls hc.layout hroot (hread 0 [] hroot)) hfind hopen hdisk
  rw [show mgr.rootInode = mgr.inode 0 from rfl, hpanic] at hls
  cases hls

end Listed

/-! ## The strings of a process -/

/-- A process calls `sys_exec` with strings in its memory, and the program that it names is loaded
    with room for the arguments. -/
structure ExecStrings (img : KernelImage) (heap : Nat → Bool)
    (files : String → Option (List UInt8)) (parse : List UInt8 → Option Elf) (s : Machine)
    (p : ProcessSpace) (fuel pathPtr argsPtr : Nat) (bss : List (List UInt8)) (ms : MemorySet)
    (top entry : Nat) (st₁ : MemState) : Prop where
  path : ∃ path data elf, CStrAt s.st.mem p.memorySet.pageTable pathPtr path ∧ path.length < fuel
    ∧ CallGranted heap (pushChars path) (bss.map pushChars)
    ∧ files (pushChars path) = some data ∧ Granted heap data.length ∧ parse data = some elf
    ∧ fromElf img elf s.st = .ok ((ms, top, entry), st₁)
  pathLt : pathPtr < 2 ^ 64
  args : ArgvAt s.st.mem p.memorySet.pageTable argsPtr bss
  argsLt : argsPtr < 2 ^ 64
  aligned : argsPtr % 8 = 0
  fuel : (bss.map fun bs => bs.length + 1).sum < fuel
  fit : ArgsFit ((bss.map pushChars).map nameBytes)

/-- `argv[k]`, as the new program finds it: `argv` is in `a1`. -/
def ArgvHolds (m : Mem) (pt : PageTable) (k : Nat) (bs : List UInt8) : Prop :=
  ∃ (cx : TrapContext) (argv ptr : Nat), HoldsAt m pt TRAP_CONTEXT cx.bytes
    ∧ getElem cx.x 11 a1_lt = UInt64.ofNat argv ∧ HoldsAt m pt (argv + 8 * k) (leBytes 8 ptr)
    ∧ HoldsAt m pt ptr (bs ++ [0])

/-- The string at `ptr` arrives as the bytes `bs`: these are what `translated_str` returns, what a
    file that `sys_open` creates is listed under, and what a program gets as an argument. -/
structure ArrivesAs (img : KernelImage) (heap : Nat → Bool) (s : Machine) (i : Nat)
    (p : ProcessSpace) (ptr : Nat) (bs : List UInt8) : Prop where
  read : ∀ fuel, bs.length < fuel →
    ∃ str, translatedStrOn heap s.st.mem p.memorySet.token fuel ptr = some str
      ∧ nameBytes str = bs
  listed : ∀ fuel str, bs.length < fuel →
    translatedStrOn heap s.st.mem p.memorySet.token fuel ptr = some str → ListedAs str bs
  passed : ∀ cpu files parse fuel pathPtr argsPtr bss ms top entry st₁,
    ExecStrings img heap files parse s p fuel pathPtr argsPtr bss ms top entry st₁ →
    ∃ s' ppn, Machine.sysExec img cpu heap files parse fuel i pathPtr argsPtr s
        = .ok ((bss.length : Int), s')
      ∧ s'.procs = s.procs.set i { p with memorySet := ms, trapCxPpn := ppn }
      ∧ ∀ k, bss[k]? = some bs → ArgvHolds s'.st.mem ms.pageTable k bs

theorem toList_pushChars (bs : List UInt8) : (pushChars bs).toList = bs.map Char.ofUInt8 :=
  String.toList_ofList

theorem ofUInt8_inj {a b : UInt8} (h : Char.ofUInt8 a = Char.ofUInt8 b) : a = b := by
  rw [← UInt8.toNat_inj, ← val_ofUInt8, ← val_ofUInt8, h]

section Strings

variable {img : KernelImage} {heap : Nat → Bool} {s : Machine} {i ptr : Nat} {p : ProcessSpace}
  {bs : List UInt8}

/-- A string that arrives unchanged is ASCII, and had room. -/
theorem ArrivesAs.ascii (h : ArrivesAs img heap s i p ptr bs)
    (hread : ∀ fuel, bs.length < fuel →
      translatedStr s.st.mem p.memorySet.token fuel ptr = some (pushChars bs)) :
    (∀ b ∈ bs, b < 128) ∧ HasRoom heap (stringBuffers bs.length) := by
  obtain ⟨str, hstr, hbytes⟩ := h.read (bs.length + 1) (Nat.lt_succ_self _)
  obtain ⟨hstr, hroom⟩ := Option.filter_eq_some_iff.mp hstr
  rw [hread _ (Nat.lt_succ_self _), Option.some.injEq] at hstr
  rw [hbytes] at hroom
  rw [← hstr, nameBytes_pushChars_iff] at hbytes
  exact ⟨hbytes, of_decide_eq_true hroom⟩

/-- The arguments that are ASCII are those of the new program. -/
theorem ExecStrings.passed {heap : Nat → Bool} {files : String → Option (List UInt8)}
    {parse : List UInt8 → Option Elf} {fuel pathPtr argsPtr : Nat} {bss : List (List UInt8)}
    {ms : MemorySet} {top entry : Nat} {st₁ : MemState}
    (h : ExecStrings img heap files parse s p fuel pathPtr argsPtr bss ms top entry st₁)
    (cpu : TrapSetup) (hok : s.Ok img) (hp : s.procs[i]? = some p) (hz : p.zombie = false) :
    ∃ s' ppn, Machine.sysExec img cpu heap files parse fuel i pathPtr argsPtr s
        = .ok ((bss.length : Int), s')
      ∧ s'.procs = s.procs.set i { p with memorySet := ms, trapCxPpn := ppn }
      ∧ ∀ k bs, bss[k]? = some bs → (∀ b ∈ bs, b < 128) →
        ArgvHolds s'.st.mem ms.pageTable k bs := by
  obtain ⟨path, data, elf, hpath, hfuel, hstrings, hfile, hgranted, hparse, hrun⟩ := h.path
  have hcall := ExecCall.of_holds hok hp hz hpath h.pathLt h.args h.argsLt h.aligned hfuel h.fuel
  have hmeets : Meets (fun _ => False)
      (Machine.sysExec img cpu heap files parse fuel i pathPtr argsPtr) s _ :=
    hcall.loaded hstrings hfile hgranted hparse hrun h.fit
  obtain ⟨r, s', hexec, rfl, argv, sp, ppn, hprocs, hlayout⟩ := hmeets.exists_ok
  rw [List.length_map] at hexec
  refine ⟨s', ppn, hexec, hprocs, fun k bs hk hascii => ?_⟩
  obtain ⟨cx, hcx, -, -, -, hargv⟩ := hlayout.context
  have harg : ((bss.map pushChars).map nameBytes)[k]? = some bs := by
    rw [List.getElem?_map, List.getElem?_map, hk, Option.map_some, Option.map_some,
      (nameBytes_pushChars_iff bs).mpr hascii]
  exact ⟨cx, argv, _, hcx, hargv, hlayout.placed.words k bs harg, hlayout.placed.strings k bs harg⟩

/-- A string of a process arrives unchanged if and only if it is ASCII, not one of 28 bytes that
    are not all slashes, and the heap has room for it. -/
theorem strings_unchanged_iff (hok : s.Ok img) (hp : s.procs[i]? = some p) (hz : p.zombie = false)
    (hstr : CStrAt s.st.mem p.memorySet.pageTable ptr bs) (hptr : ptr < 2 ^ 64) :
    ArrivesAs img heap s i p ptr bs ↔ (∀ b ∈ bs, b < 128)
      ∧ (bs.length = 28 → ∀ b ∈ bs, b = 0x2f) ∧ HasRoom heap (stringBuffers bs.length) := by
  have hread : ∀ fuel, bs.length < fuel →
      translatedStr s.st.mem p.memorySet.token fuel ptr = some (pushChars bs) :=
    fun _ hfuel => hstr.read hok hp hz hptr hfuel
  have hreadOn : nameBytes (pushChars bs) = bs → HasRoom heap (stringBuffers bs.length) →
      ∀ fuel, bs.length < fuel →
        translatedStrOn heap s.st.mem p.memorySet.token fuel ptr = some (pushChars bs) := by
    intro hbytes hroom fuel hfuel
    rw [translatedStrOn, hread fuel hfuel, Option.filter_some, hbytes,
      if_pos (decide_eq_true hroom)]
  have hslash : components (pushChars bs) = [] ↔ ∀ b ∈ bs, b = 0x2f := by
    rw [components_eq_nil_iff, toList_pushChars, List.forall_mem_map]
    refine forall_congr' fun b => imp_congr_right fun _ => ?_
    exact ⟨fun h => ofUInt8_inj h, fun h => by rw [h]; rfl⟩
  have hnul : '\x00' ∉ (pushChars bs).toList := by
    rw [toList_pushChars, List.mem_map]
    rintro ⟨b, hb, hzero⟩
    obtain rfl : b = 0 := ofUInt8_inj hzero
    exact hstr.1 hb
  constructor
  · intro h
    obtain ⟨hascii, hroom⟩ := h.ascii hread
    have hbytes := (nameBytes_pushChars_iff bs).mpr hascii
    refine ⟨hascii, fun hlen => ?_, hroom⟩
    rw [← hslash]
    by_contra hpath
    exact not_listedAs_full hnul (by rw [hbytes]; exact hlen) hpath bs
      (h.listed _ _ (Nat.lt_succ_self _) (hreadOn hbytes hroom _ (Nat.lt_succ_self _)))
  · rintro ⟨hascii, hfull, hroom⟩
    have hbytes := (nameBytes_pushChars_iff bs).mpr hascii
    refine ⟨fun fuel hfuel => ⟨_, hreadOn hbytes hroom fuel hfuel, hbytes⟩,
      fun fuel str hfuel hsome => ?_, ?_⟩
    · rw [hreadOn hbytes hroom fuel hfuel, Option.some.injEq] at hsome
      have hlisted := listedAs_nameBytes hnul fun hlen =>
        hslash.mpr (hfull (by rwa [hbytes] at hlen))
      rwa [hbytes, hsome] at hlisted
    · intro cpu files parse fuel pathPtr argsPtr bss ms top entry st₁ hexec
      obtain ⟨s', ppn, hrun, hprocs, hargs⟩ := hexec.passed cpu hok hp hz
      exact ⟨s', ppn, hrun, hprocs, fun k hk => hargs k bs hk hascii⟩

end Strings

/-- The string `ls`. -/
theorem strings_unchanged_ls : ∃ s p,
    ArrivesAs default (fun size => size ≤ 0x100000) s 0 p 0x1000 [0x6c, 0x73] := by
  obtain ⟨s, p, hok, hp, hz, -, hheld⟩ := @exists_caller [0x6c, 0x73, 0] (by decide)
  exact ⟨s, p, (strings_unchanged_iff hok hp hz ⟨by decide, hheld⟩ (by decide)).mpr
    ⟨by simp, by decide, HasRoom.string (by decide)⟩⟩

/-- Two bytes of UTF-8, read as two characters of two bytes. -/
theorem accent_changed : ∃ s p, s.Ok default ∧ s.procs[0]? = some p ∧ p.zombie = false
    ∧ CStrAt s.st.mem p.memorySet.pageTable 0x1000 (nameBytes "é")
    ∧ translatedStr s.st.mem p.memorySet.token 3 0x1000 = some "Ã©"
    ∧ ¬ ArrivesAs default (fun size => size ≤ 0x100000) s 0 p 0x1000 (nameBytes "é") := by
  have haccent : nameBytes "é" = [0xc3, 0xa9] := by decide
  have hchars : pushChars [0xc3, 0xa9] = "Ã©" := by decide
  obtain ⟨s, p, hok, hp, hz, -, hheld⟩ := @exists_caller [0xc3, 0xa9, 0] (by decide)
  have hstr : CStrAt s.st.mem p.memorySet.pageTable 0x1000 [0xc3, 0xa9] := ⟨by decide, hheld⟩
  have hread : ∀ fuel, 2 < fuel → translatedStr s.st.mem p.memorySet.token fuel 0x1000
      = some (pushChars [0xc3, 0xa9]) := fun _ hfuel => hstr.read hok hp hz (by decide) hfuel
  rw [haccent]
  refine ⟨s, p, hok, hp, hz, hstr, by rw [hread 3 (by decide), hchars], fun h => ?_⟩
  exact absurd (h.ascii hread).1 (by simp)

end Nimloth

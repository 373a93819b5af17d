import Nimloth.FrameOrder
import Nimloth.PidLifecycle

/-!
# Frames of different processes

What one process maps, another one does not, nor is it a table or free.
All of it follows from `Machine.Ok`, which every event of `Lifecycle`
keeps, and reaping too, as long as the exit code is not written across
the end of a page into a table: `translated_refmut` translates the first
byte only, and the rest goes to whatever frame comes next.
-/

namespace Nimloth

open Outcome PageTable MemorySet

/-! ## Statements -/

/-- Page `v` is mapped to frame `n`. -/
def ProcessSpace.Maps (m : Mem) (p : ProcessSpace) (v n : Nat) : Prop :=
  v < 2 ^ 27 ∧ ∃ e, p.memorySet.pageTable.lookup m v = some e ∧ e.ppn = n

/-- A table of the process: its trackers hold the frame, or a walk leads to it. -/
def ProcessSpace.HasTable (m : Mem) (p : ProcessSpace) (n : Nat) : Prop :=
  n ∈ p.memorySet.pageTable.frames
    ∨ ∃ is, IsPath is ∧ node m p.memorySet.pageTable.rootPpn is = some n

namespace Machine

structure Exclusive (s : Machine) : Prop where
  data : ∀ (i j : Nat) (p q : ProcessSpace) (v w n : Nat), s.procs[i]? = some p → s.procs[j]? = some q →
    p.zombie = false → q.zombie = false → p.Maps s.st.mem v n → q.Maps s.st.mem w n →
      i = j ∧ v = w ∨ v = TRAMPOLINE_VPN ∧ w = TRAMPOLINE_VPN
  tables : ∀ p ∈ s.procs, ∀ q ∈ s.procs, p.zombie = false → ∀ v n, p.Maps s.st.mem v n →
    ¬ q.HasTable s.st.mem n
  free : ∀ n, s.st.alloc.Free n → (∀ p ∈ s.procs, p.zombie = false → ∀ v, ¬ p.Maps s.st.mem v n)
    ∧ ∀ q ∈ s.procs, ¬ q.HasTable s.st.mem n

/-- The tables of the kernel and of the processes. -/
def tables (s : Machine) : List Nat := s.kernel.pageTable.frames ++ s.sets.tables

end Machine

/-- Creation, `fork`, `exec` and exit, and reaping. -/
inductive ProcessEvent where
  | lifecycle (e : Lifecycle)
  | waitpid (j i exitCodePtr : Nat)

def ProcessEvent.run (img : KernelImage) : ProcessEvent → MachineM Unit
  | .lifecycle e => e.run img
  | .waitpid j i exitCodePtr => Machine.waitpid j i exitCodePtr

def ProcessStep (img : KernelImage) (s : Machine) (e : ProcessEvent) (s' : Machine) : Prop :=
  e.run img s = .ok ((), s')

/-- The exit code is written within a page, or what lies behind the frame of the page is no
    table. -/
def ProcessEvent.Fits (s : Machine) : ProcessEvent → Prop
  | .lifecycle _ => True
  | .waitpid j _ exitCodePtr => exitCodePtr % 4096 + 4 ≤ 4096
      ∨ ∀ p e, s.procs[j]? = some p →
        p.memorySet.pageTable.translate s.st.mem (pageOf exitCodePtr) = some e →
          e.ppn + 1 ∉ s.tables

def FittingStep (img : KernelImage) (s : Machine) (e : ProcessEvent) (s' : Machine) : Prop :=
  ProcessStep img s e s' ∧ e.Fits s

/-! ## What the invariant says of frames -/

namespace Machine

variable {img : KernelImage} {s : Machine} {i j : Nat} {p q : ProcessSpace}

theorem mem_sets (hp : p ∈ s.procs) : (p.memorySet, p.zombie) ∈ s.sets :=
  List.mem_map_of_mem hp

namespace Ok

/-- Two processes hold no frame in common. -/
theorem frames_apart (h : s.Ok img) (hp : s.procs[i]? = some p) (hq : s.procs[j]? = some q)
    (hne : j ≠ i) {n : Nat} (hn : n ∈ p.memorySet.frames) : n ∉ q.memorySet.frames := by
  intro hn'
  have ho := (Holds.perm h (sets_perm hp)).owns.right
  rw [Sets.frames_cons] at ho
  refine ho.not_mem (p := n) (List.mem_flatMap.mpr ⟨(q.memorySet, q.zombie), ?_, hn'⟩) hn
  exact List.mem_map_of_mem (List.mem_eraseIdx_iff_getElem?.mpr ⟨j, hne, hq⟩)

theorem setOk (h : s.Ok img) (hp : p ∈ s.procs) :
    SetOk img.trampoline s.st.mem p.memorySet p.zombie := Holds.sets h _ (mem_sets hp)

theorem userOk (h : s.Ok img) (hp : p ∈ s.procs) (hz : p.zombie = false) :
    p.memorySet.UserOk img.trampoline s.st := by
  refine Holds.userOk h ?_
  rw [← hz]
  exact mem_sets hp

theorem mem_frames (hp : p ∈ s.procs) {n : Nat} (hn : n ∈ p.memorySet.frames) :
    n ∈ s.kernel.frames ++ s.sets.frames :=
  List.mem_append_right _ (List.mem_flatMap.mpr ⟨_, mem_sets hp, hn⟩)

/-- What a process maps is the trampoline or a data frame of its own. -/
theorem maps_cases (h : s.Ok img) (hp : p ∈ s.procs) (hz : p.zombie = false) {v n : Nat}
    (hv : p.Maps s.st.mem v n) : v = TRAMPOLINE_VPN ∧ n = img.trampoline
      ∨ ∃ a ∈ p.memorySet.areas, (v, n) ∈ a.dataFrames := by
  obtain ⟨hlt, e, he, rfl⟩ := hv
  exact (h.userOk hp hz).lookup_cases img.trampoline_lt_two_pow hlt he

theorem mem_data {a : MapArea} {v n : Nat} (ha : a ∈ p.memorySet.areas)
    (hn : (v, n) ∈ a.dataFrames) : n ∈ dataPpns p.memorySet.areas :=
  List.mem_flatMap.mpr ⟨a, ha, List.mem_map_of_mem hn⟩

theorem table_mem (h : s.Ok img) (hq : q ∈ s.procs) {n : Nat} (hn : q.HasTable s.st.mem n) :
    n ∈ q.memorySet.pageTable.frames := by
  rcases hn with hn | ⟨is, his, hn⟩
  · exact hn
  · exact (h.setOk hq).tree.mem is n his hn

theorem exclusive (h : s.Ok img) : s.Exclusive := by
  have htramp : ∀ p ∈ s.procs, img.trampoline ∉ p.memorySet.frames :=
    fun p hp hmem => Holds.apart h (mem_frames hp hmem)
  constructor
  · intro i j p q v w n hp hq hzp hzq hv hw
    have hpm := List.mem_of_getElem? hp
    have hqm := List.mem_of_getElem? hq
    rcases h.maps_cases hpm hzp hv with ⟨rfl, rfl⟩ | ⟨a, ha, hva⟩
    · rcases h.maps_cases hqm hzq hw with ⟨rfl, -⟩ | ⟨b, hb, hwb⟩
      · exact Or.inr ⟨rfl, rfl⟩
      · exact absurd (List.mem_append_right _ (mem_data hb hwb)) (htramp q hqm)
    · have hn : n ∈ p.memorySet.frames := List.mem_append_right _ (mem_data ha hva)
      rcases h.maps_cases hqm hzq hw with ⟨rfl, rfl⟩ | ⟨b, hb, hwb⟩
      · exact absurd hn (htramp p hpm)
      · by_cases hij : j = i
        · subst hij
          rw [hp] at hq
          cases hq
          exact Or.inl ⟨rfl, (h.userOk hpm hzp).page_unique ha hb hva hwb⟩
        · exact absurd (List.mem_append_right _ (mem_data hb hwb)) (h.frames_apart hp hq hij hn)
  · intro p hp q hq hz v n hv hn
    have hn := h.table_mem hq hn
    rcases h.maps_cases hp hz hv with ⟨-, rfl⟩ | ⟨a, ha, hva⟩
    · exact htramp q hq (List.mem_append_left _ hn)
    · refine Holds.data_apart h (mem_sets hp) (mem_data ha hva) ?_
      exact List.mem_append_right _ (Sets.mem_tables (mem_sets hq) hn)
  · intro n hfree
    refine ⟨fun p hp hz v hv => ?_, fun q hq hn => ?_⟩
    · rcases h.maps_cases hp hz hv with ⟨-, rfl⟩ | ⟨a, ha, hva⟩
      · exact Holds.free h hfree
      · exact h.owns.used n (mem_frames hp (List.mem_append_right _ (mem_data ha hva))) hfree
    · exact h.owns.used n (mem_frames hq (List.mem_append_left _ (h.table_mem hq hn))) hfree

/-- The events but reaping. -/
theorem lifecycle (h : s.Ok img) (e : Lifecycle) :
    Meets (fun _ => True) (e.run img) s fun _ s' => s'.Ok img := by
  have hfaults : StackFaults (fun _ => True) s := ⟨fun _ _ => trivial, fun _ => trivial⟩
  cases e with
  | create cpu elf =>
      refine (create_meets (R := fun _ _ => True) h hfaults ?_ fun _ _ _ _ => trivial).mono ?_
      · refine (fromElf_meets (X := Stray img.trampoline) h.owns.wf).mono ?_
        exact fun r st₁ ⟨hok, htrap, hm⟩ => ⟨hok, htrap, hm, trivial⟩
      · exact fun _ _ ⟨_, _, _, _, hspawn, _⟩ => hspawn.ok
  | fork i =>
      refine (fork_meets h hfaults (fun _ => trivial) fun _ => ⟨trivial, trivial⟩).mono ?_
      exact fun _ _ ⟨_, _, _, _, _, _, hspawn, _⟩ => hspawn.ok
  | exec cpu i elf args =>
      exact (exec_meets h (fun _ => trivial) trivial).mono fun _ _ h' => h'.1
  | exit i exitCode =>
      exact (exit_meets h (fun _ => trivial) fun _ => trivial).mono fun _ _ h' => h'.1
  | drop i =>
      cases hp : s.procs[i]? with
      | none =>
          simp only [Lifecycle.run, dropProcess, Meets.bind_iff, Meets.get_iff]
          rw [hp]
          exact Meets.unwrap_none.mpr trivial
      | some p =>
          refine (dropProcess_meets hp (Holds.perm h (sets_perm hp)) (fun _ => trivial)
            fun _ => trivial).mono ?_
          rintro _ s' ⟨hprocs, -, hholds, -, -⟩
          rw [Ok, sets, hprocs]
          exact hholds
  | userStore i va b => exact (userStore_meets h trivial).mono fun _ _ h' => h'.1

end Ok

/-! ## Reaping -/

/-- Process `j`, which is `p`, may reap its child `i`, which is `q`. -/
structure Waits (s : Machine) (j i : Nat) (p q : ProcessSpace) : Prop where
  parent : s.procs[j]? = some p
  running : p.zombie = false
  child : s.procs[i]? = some q
  zombie : q.zombie = true
  parentPid : q.parent = some p.pid

/-- `s` with the exit code of `q` written at `pa`. -/
def withCode (s : Machine) (pa : Nat) (q : ProcessSpace) : Machine :=
  { s with st := { s.st with mem := s.st.mem.write pa (leBytes 4 q.exitCode.toNat) } }

/-- The exit code is written, then the child is dropped. -/
theorem waitpid_meets {E : Fault → Prop} {Q : Unit → Machine → Prop} {exitCodePtr : Nat}
    (hno : (∀ p q, ¬ Waits s j i p q) → E .noProcess)
    (hnull : ∀ p q, Waits s j i p q →
      translatedRefmut s.st.mem p.memorySet.token exitCodePtr = none → E (.space .noTable))
    (hdrop : ∀ p q pa, Waits s j i p q →
      translatedRefmut s.st.mem p.memorySet.token exitCodePtr = some pa →
        Meets E (dropProcess i) (s.withCode pa q) Q) :
    Meets E (waitpid j i exitCodePtr) s Q := by
  rw [waitpid, Meets.bind_iff]
  refine (running_meets fun hz => hno fun p q hw => ?_).mono ?_
  · have hzombie := hz p hw.parent
    rw [hw.running] at hzombie
    cases hzombie
  rintro p s₀ ⟨rfl, hp, hz⟩
  simp only [Meets.bind_iff, Meets.get_iff]
  cases hq : s₀.procs[i]? with
  | none =>
      refine Meets.unwrap_none.mpr (hno fun p' q' hw => ?_)
      have hchild := hw.child
      rw [hq] at hchild
      cases hchild
  | some q =>
      rw [Meets.unwrap_some, Meets.ensure_iff]
      refine ⟨?_, fun hnot => hno fun p' q' hw => hnot ?_⟩
      · rintro ⟨hqz, hparent⟩
        have hw : Waits s₀ j i p q := ⟨hp, hz, hq, hqz, hparent⟩
        simp only [onMemory_iff, refmut, Meets.bind_iff, Meets.get_iff]
        cases hpa : translatedRefmut s₀.st.mem p.memorySet.token exitCodePtr with
        | none => exact Meets.unwrap_none.mpr (hnull p q hw hpa)
        | some pa =>
            simp only [Meets.unwrap_some, writeAt, Meets.modify_iff]
            exact hdrop p q pa hw hpa
      · have hparent := hw.parent
        have hchild := hw.child
        rw [hp] at hparent
        rw [hq] at hchild
        cases hparent
        cases hchild
        exact ⟨hw.zombie, hw.parentPid⟩

/-- The exit code goes to the page of the pointer and, where it does not fit there, to the frame
    behind. -/
theorem Ok.withCode {exitCodePtr pa : Nat} (h : s.Ok img) (hw : Waits s j i p q)
    (hfits : (ProcessEvent.waitpid j i exitCodePtr).Fits s)
    (hpa : translatedRefmut s.st.mem p.memorySet.token exitCodePtr = some pa) :
    (s.withCode pa q).Ok img := by
  have hx : (p.memorySet, false) ∈ s.sets := hw.running ▸ mem_sets (List.mem_of_getElem? hw.parent)
  have hwr := Holds.writable h hx
  obtain ⟨e, he, rfl⟩ := translatedRefmut_eq_some hwr.root hpa
  have hroom := hwr.room_of_translate he
  refine Holds.write h fun n hn => ?_
  have hne : n ≠ e.ppn := by
    rintro rfl
    exact Holds.room_apart h hx hroom hn
  have hlen : (leBytes 4 q.exitCode.toNat).length = 4 := leBytes_length 4 _
  intro x hxn
  refine Mem.write_outside _ ?_
  rcases hfits with hfits | hnext
  · omega
  · have hnext' : n ≠ e.ppn + 1 := by
      rintro rfl
      exact hnext p e hw.parent he hn
    omega

theorem Ok.waitpid {exitCodePtr : Nat} (h : s.Ok img)
    (hfits : (ProcessEvent.waitpid j i exitCodePtr).Fits s) :
    Meets (fun _ => True) (waitpid j i exitCodePtr) s fun _ s' => s'.Ok img := by
  refine waitpid_meets (fun _ => trivial) (fun _ _ _ _ => trivial) ?_
  intro p q pa hw hpa
  have hchild : (s.withCode pa q).procs[i]? = some q := hw.child
  refine (dropProcess_meets hchild (Holds.perm (h.withCode hw hfits hpa) (sets_perm hchild))
    (fun _ => trivial) fun _ => trivial).mono ?_
  rintro _ s' ⟨hprocs, -, hholds, -, -⟩
  rw [Ok, sets, hprocs]
  exact hholds

/-! ## Runs -/

theorem Ok.step (h : s.Ok img) {e : ProcessEvent} {s' : Machine} (hs : FittingStep img s e s') :
    s'.Ok img := by
  cases e with
  | lifecycle e => exact (h.lifecycle e).ok hs.1
  | waitpid j i exitCodePtr => exact (h.waitpid hs.2).ok hs.1

end Machine

/-! ## A program below its table -/

/-- Four bytes from the last one of a frame on: three of them are the first ones of the frame
    behind. -/
theorem Mem.pte_write_across (m : Mem) (n : Nat) {c : Nat} (hc : c < 2 ^ 32) :
    (m.write (n * 4096 + 4095) (leBytes 4 c)).pte (n + 1) 0
      = c / 256 + 2 ^ 24 * (m.pte (n + 1) 0 / 2 ^ 24) := by
  have hread : ∀ m : Mem, m.pte (n + 1) 0
      = leNat (m.read (n * 4096 + 4096) 3) + 2 ^ 24 * leNat (m.read (n * 4096 + 4099) 5) := by
    intro m
    have ha : (n + 1) * 4096 + 8 * 0 = n * 4096 + 4096 := by omega
    have hsplit : m.read (n * 4096 + 4096) 8
        = m.read (n * 4096 + 4096) 3 ++ m.read (n * 4096 + 4099) 5 := m.read_add _ 3 5
    rw [Mem.pte, ha, hsplit, leNat_append, Mem.length_read]
    norm_num
  have hlow : (m.write (n * 4096 + 4095) (leBytes 4 c)).read (n * 4096 + 4096) 3
      = leBytes 3 (c / 256) := by
    refine List.ext_getElem (by rw [Mem.length_read, leBytes_length]) fun j hj hj' => ?_
    rw [Mem.length_read] at hj
    have hoff : n * 4096 + 4096 + j - (n * 4096 + 4095) = j + 1 := by omega
    rw [Mem.getElem_read, Mem.write_inside m (by omega) (by rw [leBytes_length]; omega), hoff, leBytes,
      List.getD_cons_succ, List.getD_eq_getElem?_getD, List.getElem?_eq_getElem hj',
      Option.getD_some]
  have hhigh : (m.write (n * 4096 + 4095) (leBytes 4 c)).read (n * 4096 + 4099) 5
      = m.read (n * 4096 + 4099) 5 :=
    Mem.read_write_of_disjoint m (Or.inr (by rw [leBytes_length]))
  have hlt := leNat_lt (m.read (n * 4096 + 4096) 3)
  rw [Mem.length_read] at hlt
  rw [hread, hread m, hlow, hhigh, leNat_leBytes]
  omega

/-- The exit code whose last three bytes are those of an entry for table `n` itself, open to the
    user. -/
def loopCode (n : Nat) : UInt32 := UInt32.ofNat (256 * ((n % 2 ^ 14) * 1024 + 23))

/-- Written across the end of frame `f`, it makes the entry behind lead to its own table, if it
    led to a frame of the same 64 MiB. -/
theorem entry_loopCode {m : Mem} {f : Nat} (h : (m.entry (f + 1) 0).ppn / 2 ^ 14 = (f + 1) / 2 ^ 14) :
    ((m.write (f * 4096 + 4095) (leBytes 4 (loopCode (f + 1)).toNat)).entry (f + 1) 0).isValid = true
      ∧ ((m.write (f * 4096 + 4095) (leBytes 4 (loopCode (f + 1)).toNat)).entry (f + 1) 0).ppn
        = f + 1 := by
  have hlt := (loopCode (f + 1)).toNat_lt
  have hcode : (loopCode (f + 1)).toNat = 256 * (((f + 1) % 2 ^ 14) * 1024 + 23) := by
    rw [loopCode, UInt32.toNat_ofNat']
    omega
  have hpte := Mem.pte_lt m (f + 1) 0
  rw [PageTableEntry.ppn_eq] at h
  dsimp only [Mem.entry] at h ⊢
  rw [Mem.pte_write_across m f hlt, hcode]
  generalize m.pte (f + 1) 0 = b at *
  constructor
  · have hflags : PageTableEntry.flags ⟨256 * (((f + 1) % 2 ^ 14) * 1024 + 23) / 256
        + 2 ^ 24 * (b / 2 ^ 24)⟩ = 23 := by
      refine UInt8.toNat_inj.mp ?_
      rw [PageTableEntry.flags, UInt8.toNat_ofNat']
      show _ = 23
      dsimp only
      omega
    rw [PageTableEntry.isValid, hflags]
    decide
  · rw [PageTableEntry.ppn_eq]
    dsimp only
    omega

/-- The first page of the stack lies in frame `f`, and the table below the root in the next one. -/
structure Stacked (m : Mem) (p : ProcessSpace) (f : Nat) : Prop where
  page : ∃ a ∈ p.memorySet.areas, a.Has 1 ∧ a.pageEntry 1
    = some (PageTableEntry.new f (PTEFlags.R ||| PTEFlags.W ||| PTEFlags.U ||| PTEFlags.V))
  table : node m p.memorySet.pageTable.rootPpn [0] = some (f + 1)
  frames : ∀ n ∈ p.memorySet.frames, 0x80700 ≤ n ∧ n < 0x81000

namespace Stacked

variable {img : KernelImage} {s : Machine} {m m' : Mem} {p : ProcessSpace} {f : Nat}

theorem congr (h : Stacked m p f) (ht : Tree m p.memorySet.pageTable)
    (hs : ∀ n ∈ p.memorySet.pageTable.frames, Mem.SameFrame m m' n) : Stacked m' p f where
  page := h.page
  table := (ht.node_congr hs ⟨by simp, by simp⟩).trans h.table
  frames := h.frames

theorem lookup (h : Stacked s.st.mem p f) (hok : s.Ok img) (hp : p ∈ s.procs)
    (hz : p.zombie = false) :
    ∃ e, p.memorySet.pageTable.lookup s.st.mem 1 = some e ∧ e.ppn = f
      ∧ f ∈ dataPpns p.memorySet.areas := by
  obtain ⟨a, ha, hav, hentry⟩ := h.page
  have huser := hok.userOk hp hz
  have hlt : ∀ n ∈ dataPpns p.memorySet.areas, n < 2 ^ 44 :=
    fun n hn => huser.owns.lt_two_pow (List.mem_append_right _ hn)
  obtain ⟨n, e, -, hn, he, hnew, hppn⟩ := framed_page huser.space ha (huser.framed a ha) hav hlt
  have hf : f < 2 ^ 44 := by
    have hmem := huser.space.tree.mem [0] _ ⟨by simp, by simp⟩ h.table
    have := (h.frames _ (List.mem_append_left _ hmem)).2
    omega
  have hsame : e = PageTableEntry.new f
      (PTEFlags.R ||| PTEFlags.W ||| PTEFlags.U ||| PTEFlags.V) := by
    rw [huser.space.own a ha 1 hav, hentry] at he
    exact (Option.some.inj he).symm
  have hfn : e.ppn = f := by
    rw [hsame]
    exact PageTableEntry.ppn_new hf _
  exact ⟨e, he, hfn, by rw [← hfn, hppn]; exact hn⟩

end Stacked

/-! ## The processes of a run -/

/-- A program is created after boot. -/
theorem exists_program : ∃ s₀ s p f, Machine.Boot default s₀
    ∧ FittingStep default s₀ (.lifecycle (.create ⟨0, 0⟩ ⟨[], [], 0⟩)) s ∧ PidInv default s
    ∧ s.procs = [p] ∧ p.zombie = false ∧ p.parent = none ∧ p.pid = 0 ∧ s.pids = ⟨1, []⟩
    ∧ pageCount p.memorySet.areas = 3 ∧ 0x100 ≤ s.st.alloc.available ∧ Stacked s.st.mem p f := by
  obtain ⟨s₀, hboot, hav⟩ := exists_boot default (fun _ => 0) (by decide)
  have htotal : (KernelImage.initFrameAllocator default).available = 0x900 := by decide
  have hinv := PidInv.boot hboot
  obtain ⟨m, hk, hpids, hprocs⟩ := hboot
  have hwf := KernelImage.wf_initFrameAllocator default
  have hr : s₀.st.alloc.recycled = [] := (newKernel_bump hwf).ok hk rfl
  obtain ⟨-, hmk, -⟩ := (newKernel_meets (X := fun _ => False) hwf).ok hk
  have hsmall : SmallPid s₀.pids.alloc.1 := by
    rw [hpids]
    decide
  have hcreate := @Machine.create_meets default _ s₀ ⟨0, 0⟩ ⟨[], [], 0⟩
    (fun ms st₁ => Moves (fun _ => False) s₀.st [] st₁ ms.frames
      ∧ s₀.st.alloc.available ≤ st₁.alloc.available + 12 ∧ pageCount ms.areas = 3
      ∧ ∃ f, (∃ a ∈ ms.areas, a.Has 1 ∧ a.pageEntry 1
          = some (PageTableEntry.new f (PTEFlags.R ||| PTEFlags.W ||| PTEFlags.U ||| PTEFlags.V)))
        ∧ node st₁.mem ms.pageTable.rootPpn [0] = some (f + 1))
    hinv.ok (hinv.stackFaults hsmall fun _ => False) ?_ ?_
  · obtain ⟨_, s, hs, ms, st₁, p, ⟨hm, hav₁, hcount, f, hpage, htable⟩, hspawn, -⟩ :=
      hcreate.exists_ok
    have hstep : FittingStep default s₀ (.lifecycle (.create ⟨0, 0⟩ ⟨[], [], 0⟩)) s :=
      ⟨hs, trivial⟩
    have hinv' := (hinv.step (.create ⟨0, 0⟩ ⟨[], [], 0⟩) fun _ => hsmall).ok hs
    have hstacked : Stacked s.st.mem p f := by
      rw [← hspawn.memorySet] at hpage htable hm
      have hp : p ∈ s.procs := by
        rw [hspawn.procs]
        exact List.mem_append_right _ (List.mem_singleton.mpr rfl)
      have hsame : ∀ n ∈ p.memorySet.pageTable.frames, Mem.SameFrame st₁.mem s.st.mem n :=
        fun n hn => hspawn.same n (Sets.mem_tables List.mem_cons_self (hspawn.memorySet ▸ hn))
      have htree : Tree st₁.mem p.memorySet.pageTable :=
        (hinv'.ok.setOk hp).tree.congr fun n hn => (hsame n hn).symm
      refine Stacked.congr ⟨hpage, htable, fun n hn => ?_⟩ htree hsame
      -- the frame was free before, and free when the kernel booted
      have hfree : (KernelImage.initFrameAllocator default).Free n := by
        by_contra hfree
        exact hmk.used n hfree List.not_mem_nil (hm.was_free hn List.not_mem_nil)
      rcases hfree with hmem | hfree
      · exact absurd hmem List.not_mem_nil
      · exact hfree
    refine ⟨s₀, s, p, f, ⟨m, hk, hpids, hprocs⟩, hstep, hinv', ?_, hspawn.zombie, hspawn.parent, ?_,
      ?_, ?_, ?_, hstacked⟩
    · rw [hspawn.procs, hprocs]
      rfl
    · rw [hspawn.pid, hpids]
      rfl
    · rw [hspawn.pids, hpids]
      rfl
    · rw [hspawn.memorySet]
      exact hcount
    · have hav₂ := (hspawn.stack (hspawn.pid ▸ hsmall)).2
      dsimp only at hav₂
      omega
  · refine ((fromElf_no_segments hinv.ok.owns.wf rfl (by omega)).and
      (fromElf_first hinv.ok.owns.wf rfl hr)).mono ?_
    rintro r st₁ ⟨⟨hok, htrap, hm, hst₁, -⟩, hcount, hfirst⟩
    exact ⟨hok, htrap, hm.weaken fun _ => False.elim, hm, hst₁, hcount, hfirst⟩
  · rintro ms st₁ ⟨-, hst₁, -⟩ hlt
    omega

/-- Its child exits with a code that may depend on where the stack lies. -/
theorem exists_waiting (code : Nat → UInt32) : ∃ s₀ s tr p q f, Machine.Boot default s₀
    ∧ Runs (FittingStep default) s₀ tr s ∧ PidInv default s ∧ s.procs = [p, q]
    ∧ Machine.Waits s 0 1 p q ∧ q.exitCode = code f ∧ Stacked s.st.mem p f := by
  obtain ⟨s₀, s₁, p, f, hboot, hstep₁, hinv₁, hprocs₁, hz, hparent, hpid, hpids, hcount, hav,
    hstacked⟩ := exists_program
  have hsmall : SmallPid s₁.pids.alloc.1 := by
    rw [hpids]
    decide
  have hp₁ : s₁.procs[0]? = some p := by
    rw [hprocs₁]
    rfl
  have hmem₁ : p ∈ s₁.procs := List.mem_of_getElem? hp₁
  have hfork : Meets (fun _ => False) (Machine.fork default 0) s₁ _ :=
    Machine.fork_meets hinv₁.ok (hinv₁.stackFaults hsmall fun _ => False) ?_ ?_
  rotate_left
  · intro hzombie
    have := hzombie p hp₁
    rw [hz] at this
    cases this
  · intro hlow
    have := hlow p hp₁
    omega
  obtain ⟨_, s₂, hs₂, p', ms, st₁, q, hp', -, hspawn, hsame⟩ := hfork.exists_ok
  rw [hp₁] at hp'
  cases hp'
  have hinv₂ : PidInv default s₂ := (hinv₁.step (.fork 0) fun _ => hsmall).ok hs₂
  have hprocs₂ : s₂.procs = [p, q] := by
    rw [hspawn.procs, hprocs₁]
    rfl
  have hqpid : q.pid = 1 := by
    rw [hspawn.pid, hpids]
    rfl
  have hstacked₂ : Stacked s₂.st.mem p f := by
    refine hstacked.congr (hinv₁.ok.setOk hmem₁).tree fun n hn => ?_
    have htables := Sets.mem_tables (Machine.mem_sets hmem₁) hn
    refine (hsame n (Sets.tables_subset _ htables)).trans (hspawn.same n ?_)
    exact List.mem_append_right _ htables
  have hexit : Meets (fun _ => False) (Machine.exit 1 (code f)) s₂ _ :=
    Machine.exit_meets hinv₂.ok ?_ ?_
  rotate_left
  · intro hzombie
    have := hzombie q (by rw [hprocs₂]; rfl)
    rw [hspawn.zombie] at this
    cases this
  · rintro ⟨q', hq', hdown⟩
    rw [hprocs₂] at hq'
    cases hq'
    omega
  obtain ⟨_, s₃, hs₃, -, -, hmem₃, q', hq', hprocs₃⟩ := hexit.exists_ok
  rw [hprocs₂] at hq' hprocs₃
  cases hq'
  have hinv₃ : PidInv default s₃ :=
    (hinv₂.step (.exit 1 (code f)) fun h => h.elim).ok hs₃
  have hsameP : Machine.reparent q.pid p = p := by
    simp only [Machine.reparent, hparent]
    cases p
    cases hparent
    rfl
  simp only [List.map_cons, List.map_nil, List.set_cons_succ, List.set_cons_zero, hsameP]
    at hprocs₃
  have hstep₂ : FittingStep default s₁ (.lifecycle (.fork 0)) s₂ := ⟨hs₂, trivial⟩
  have hstep₃ : FittingStep default s₂ (.lifecycle (.exit 1 (code f))) s₃ := ⟨hs₃, trivial⟩
  have hrun := Runs.snoc (Runs.snoc (Runs.single hstep₁) hstep₂) hstep₃
  refine ⟨s₀, s₃, _, p, _, f, hboot, hrun, hinv₃, hprocs₃, ⟨?_, hz, ?_, rfl, ?_⟩, rfl,
    hmem₃ ▸ hstacked₂⟩
  · rw [hprocs₃]
    rfl
  · rw [hprocs₃]
    rfl
  · simp only [Machine.reparent, hspawn.parent, hpid, hqpid]
    decide

/-- The child is reaped with a pointer into the first page of the stack. -/
theorem exists_reaped {img : KernelImage} {s : Machine} {p q : ProcessSpace} {f exitCodePtr : Nat}
    (h : PidInv img s) (hprocs : s.procs = [p, q]) (hw : Machine.Waits s 0 1 p q)
    (hstacked : Stacked s.st.mem p f) (hpage : pageOf exitCodePtr = 1) :
    ∃ s', Machine.waitpid 0 1 exitCodePtr s = .ok ((), s') ∧ s'.procs = [p]
      ∧ ∀ n ∈ p.memorySet.frames, Mem.SameFrame
        (s.withCode (f * 4096 + exitCodePtr % 4096) q).st.mem s'.st.mem n := by
  have hp := List.mem_of_getElem? hw.parent
  have hq := List.mem_of_getElem? hw.child
  have huser := h.ok.userOk hp hw.running
  obtain ⟨e, he, hppn, hdata⟩ := hstacked.lookup h.ok hp hw.running
  have hfpos := (hstacked.frames f (List.mem_append_right _ hdata)).1
  have hptr : translatedRefmut s.st.mem p.memorySet.token exitCodePtr
      = some (f * 4096 + exitCodePtr % 4096) := by
    show translatedPtr s.st.mem p.memorySet.pageTable.token exitCodePtr = _
    rw [translatedPtr_eq huser.rootPpn_lt, hpage, translate_of_lookup he]
    dsimp only
    rw [hppn, if_neg (by omega)]
  have hnext : f + 1 ∈ p.memorySet.pageTable.frames :=
    huser.space.tree.mem [0] _ ⟨by simp, by simp⟩ hstacked.table
  have hsets : s.sets = [(p.memorySet, false), (q.memorySet, q.zombie)] := by
    rw [Machine.sets, hprocs, ← hw.running]
    rfl
  have hholds : Holds img s.st s.kernel ((p.memorySet, false) :: [(q.memorySet, q.zombie)]) :=
    hsets ▸ h.ok
  have hapart : ∀ n ∈ p.memorySet.frames,
      n ∉ s.kernel.frames ++ Sets.frames [(q.memorySet, q.zombie)] := by
    intro n hn hmem
    have ho := hholds.owns
    rw [Sets.frames_cons] at ho
    have hperm := ho.perm (List.perm_append_comm_assoc _ _ _)
    exact hperm.not_mem hmem hn
  have hrest : Holds img (s.withCode (f * 4096 + exitCodePtr % 4096) q).st s.kernel
      [(q.memorySet, q.zombie)] := by
    refine hholds.of_cons.write fun n hn => ?_
    have hlen : (leBytes 4 q.exitCode.toNat).length = 4 := leBytes_length 4 _
    have hne : ∀ k ∈ p.memorySet.frames, n ≠ k := by
      rintro k hk rfl
      refine hapart n hk ?_
      rcases List.mem_append.mp hn with hn | hn
      · exact List.mem_append_left _ (List.mem_append_left _ hn)
      · exact List.mem_append_right _ (Sets.tables_subset _ hn)
    have hf := hne f (List.mem_append_right _ hdata)
    have hf' := hne (f + 1) (List.mem_append_left _ hnext)
    exact fun x hx => Mem.write_outside _ (by omega)
  have hdealloc : s.pids.dealloc q.pid ≠ none := by
    have hused : ∀ pid, False → pid ∈ s.procs.map ProcessSpace.pid ∧ pid ≠ q.pid :=
      fun _ => False.elim
    obtain ⟨pids, hpids, -⟩ := h.pids.dealloc (List.mem_map_of_mem hq) hused
    rw [hpids]
    exact Option.some_ne_none _
  have hsmall := h.small _ (List.mem_map_of_mem hq)
  have hmeets : Meets (fun _ => False) (Machine.waitpid 0 1 exitCodePtr) s fun _ s' =>
      s'.procs = [p] ∧ ∀ n ∈ p.memorySet.frames, Mem.SameFrame
        (s.withCode (f * 4096 + exitCodePtr % 4096) q).st.mem s'.st.mem n := by
    have hwaits : ∀ p' q', Machine.Waits s 0 1 p' q' → p' = p ∧ q' = q := by
      intro p' q' hw'
      have h₁ := hw'.parent.symm.trans hw.parent
      have h₂ := hw'.child.symm.trans hw.child
      exact ⟨Option.some.inj h₁, Option.some.inj h₂⟩
    refine Machine.waitpid_meets (fun hno => hno p q hw) ?_ ?_
    · intro p' q' hw' hnone
      rw [(hwaits p' q' hw').1, hptr] at hnone
      cases hnone
    · intro p' q' pa hw' hpa
      obtain ⟨rfl, rfl⟩ := hwaits p' q' hw'
      rw [hptr] at hpa
      cases hpa
      refine (Machine.dropProcess_meets (s := s.withCode _ _) hw.child hrest
        (fun hnone => hdealloc hnone) fun hs => absurd hsmall hs).mono ?_
      rintro _ s' ⟨hprocs', -, -, hm, -⟩
      refine ⟨?_, fun n hn => hm.same n ?_ ?_ ?_⟩
      · rw [hprocs']
        show s.procs.eraseIdx 1 = _
        rw [hprocs]
        rfl
      · exact Holds.not_stray h.ok (Machine.Ok.mem_frames hp hn)
      · exact h.ok.owns.used n (Machine.Ok.mem_frames hp hn)
      · intro hmem
        have hsingle : Sets.frames [(q'.memorySet, q'.zombie)] = q'.memorySet.frames :=
          List.append_nil _
        refine hapart n hn ?_
        rw [hsingle]
        exact hmem
  obtain ⟨_, s', hs', hprocs', hsame⟩ := hmeets.exists_ok
  exact ⟨s', hs', hprocs', hsame⟩

/-- With that exit code, and a pointer to the last byte of the page, page 0 leads to the table. -/
theorem maps_table {img : KernelImage} {s : Machine} {m : Mem} {p q : ProcessSpace} {f : Nat}
    (hok : s.Ok img) (hp : p ∈ s.procs) (hz : p.zombie = false)
    (hstacked : Stacked s.st.mem p f) (hcode : q.exitCode = loopCode (f + 1))
    (hsame : ∀ n ∈ p.memorySet.frames,
      Mem.SameFrame (s.withCode (f * 4096 + 4095) q).st.mem m n) : p.Maps m 0 (f + 1) := by
  have huser := hok.userOk hp hz
  have htree := huser.space.tree
  obtain ⟨e, he, hppn, hdata⟩ := hstacked.lookup hok hp hz
  have hpath₀ : IsPath [0] := ⟨by simp, by simp⟩
  have hnext := htree.mem [0] _ hpath₀ hstacked.table
  have hroot := htree.mem [] _ isPath_nil rfl
  -- the root is neither the frame of the stack nor the table
  have hroot₁ : p.memorySet.pageTable.rootPpn ≠ f + 1 := by
    intro heq
    have hself : node s.st.mem p.memorySet.pageTable.rootPpn [] = some (f + 1) :=
      congrArg some heq
    have hpaths := htree.inj [] [0] _ isPath_nil hpath₀ hself hstacked.table
    cases hpaths
  have hroot₂ : p.memorySet.pageTable.rootPpn ≠ f := by
    intro heq
    have hdata' : p.memorySet.pageTable.rootPpn ∈ dataPpns p.memorySet.areas := heq ▸ hdata
    exact huser.owns.not_mem hdata' hroot
  have hkept : Mem.SameFrame s.st.mem m p.memorySet.pageTable.rootPpn := by
    refine Mem.SameFrame.trans (fun x hx => Mem.write_outside _ ?_)
      (hsame _ (List.mem_append_left _ hroot))
    rw [leBytes_length]
    omega
  have hentry₀ := hkept.entry (i := 0) (by decide)
  have htable := hstacked.table
  rw [node] at htable
  split at htable
  · next hvalid =>
      have hppn₀ : (s.st.mem.entry p.memorySet.pageTable.rootPpn 0).ppn = f + 1 :=
        Option.some.inj htable
      -- the entry of the table led to the one below, a frame of the same range
      have hlook := he
      rw [lookup_eq] at hlook
      obtain ⟨g, hg, -⟩ := Option.bind_eq_some_iff.mp hlook
      have hgmem := htree.mem _ g (vpnPath_isPath 1) hg
      have hpath₁ : vpnPath 1 = [0] ++ [0] := by decide
      rw [hpath₁, node_snoc, hstacked.table, Option.bind_some] at hg
      split at hg
      · have hgppn : (s.st.mem.entry (f + 1) 0).ppn = g := Option.some.inj hg
        have hgrange := hstacked.frames g (List.mem_append_left _ hgmem)
        have hfrange := hstacked.frames _ (List.mem_append_left _ hnext)
        obtain ⟨hv, hl⟩ := entry_loopCode (m := s.st.mem) (f := f) (by omega)
        have hentry₁ := (hsame _ (List.mem_append_left _ hnext)).entry (i := 0) (by decide)
        simp only [Machine.withCode, hcode] at hentry₁
        rw [← hentry₁] at hv hl
        have hnode : node m p.memorySet.pageTable.rootPpn (vpnPath 0) = some (f + 1) := by
          have hpath₂ : vpnPath 0 = [0, 0] := by decide
          rw [hpath₂, node, hentry₀, if_pos hvalid, hppn₀, node, if_pos hv, hl, node]
        refine ⟨by decide, m.entry (f + 1) 0, ?_, hl⟩
        rw [lookup_eq, hnode, Option.bind_some, Nat.zero_mod, if_pos hv]
      · cases hg
  · cases htable

theorem frame_exclusivity {img : KernelImage} {s₀ s : Machine} {tr : List ProcessEvent}
    (hboot : Machine.Boot img s₀) (hrun : Runs (FittingStep img) s₀ tr s) : s.Exclusive := by
  have hok : s.Ok img := hrun.invariant (PidInv.boot hboot).ok fun _ _ _ h hs => h.step hs
  exact hok.exclusive

/-- A child is created, exits and is reaped. -/
theorem frame_exclusivity_reaped : ∃ s₀ s tr, Machine.Boot default s₀
    ∧ Runs (FittingStep default) s₀ (tr ++ [.waitpid 0 1 0x1000]) s ∧ s.Exclusive := by
  obtain ⟨s₀, s, tr, p, q, f, hboot, hrun, hinv, hprocs, hw, -, hstacked⟩ :=
    exists_waiting fun _ => 0
  have hpage : pageOf 0x1000 = 1 := by decide
  obtain ⟨s', hs', -⟩ := exists_reaped hinv hprocs hw hstacked hpage
  have hstep : FittingStep default s (.waitpid 0 1 0x1000) s' := ⟨hs', Or.inl (by decide)⟩
  exact ⟨s₀, s', tr, hboot, Runs.snoc hrun hstep, frame_exclusivity hboot (Runs.snoc hrun hstep)⟩

/-- The parent passes a pointer to the last byte of a page, and its child an exit code that makes
    the table behind a page of the parent. -/
theorem exit_code_maps_table : ∃ s₀ s tr, Machine.Boot default s₀
    ∧ Runs (ProcessStep default) s₀ (tr ++ [.waitpid 0 1 0x1fff]) s ∧ ¬ s.Exclusive := by
  obtain ⟨s₀, s, tr, p, q, f, hboot, hrun, hinv, hprocs, hw, hcode, hstacked⟩ :=
    exists_waiting fun f => loopCode (f + 1)
  have hpage : pageOf 0x1fff = 1 := by decide
  obtain ⟨s', hs', hprocs', hsame⟩ := exists_reaped hinv hprocs hw hstacked hpage
  have hstep : ProcessStep default s (.waitpid 0 1 0x1fff) s' := hs'
  have hrun' : Runs (ProcessStep default) s₀ tr s := hrun.mono fun _ _ _ h => h.1
  refine ⟨s₀, s', tr, hboot, Runs.snoc hrun' hstep, fun hexcl => ?_⟩
  have hp := List.mem_of_getElem? hw.parent
  have hp' : p ∈ s'.procs := by
    rw [hprocs']
    exact List.mem_singleton.mpr rfl
  have hmaps := maps_table hinv.ok hp hw.running hstacked hcode hsame
  refine hexcl.tables p hp' p hp' hw.running 0 (f + 1) hmaps (Or.inl ?_)
  exact (hinv.ok.setOk hp).tree.mem [0] _ ⟨by simp, by simp⟩ hstacked.table

end Nimloth

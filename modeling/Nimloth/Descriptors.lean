import Mathlib.Tactic.Common
import Nimloth.NumMaps
import Nimloth.KernelFiles
import Nimloth.KernelFrame
import Nimloth.OSInode

/-!
# Descriptor tables

The calls of `os/src/syscall/fs.rs` that change a descriptor table, and
`fork`, which copies one. A table is a list with holes that `alloc_fd`
fills or extends. What it stands for is a finite map from numbers to file
objects (`FdSystem`), and the calls are the operations of `FdMapStep` on
it: `fd_tables_are_maps`.

A file object has a name that is not used again, so two descriptors with
one name are one object, with one offset. The objects that `sys_open`
makes for the files of the disk are outside `Kernel.files`, which has the
console and the pipes.
-/

namespace Nimloth

/-- The calls on the descriptor table of the current process. `sys_open`
goes by what `open_file` returned for the path and the flags. -/
inductive FdCall where
  | sysOpen (inode : Option OSInode)
  | sysClose (fd : Nat)
  | sysDup (fd : Nat)
  | sysPipe
  | sysFork

namespace Kernel

variable (k : Kernel)

/-- `sys_open` once `open_file` has returned. The file it opened is a new
object. -/
def sysOpen (inode : Option OSInode) : Except Halt (Int × Kernel) :=
  match k.currentInner with
  | none => .error .current
  | some (p, inner) =>
      match inode with
      | none => .ok (-1, k)
      | some _ =>
          let file := k.nextFile
          let (fd, fdTable) := allocFd inner.fdTable
          let k := { k with nextFile := file + 1 }
          .ok (fd, k.modifyProc p fun inner =>
            { inner with fdTable := fdTable.set fd (some file) })

/-- `read_fd` and `write_fd` of `sys_pipe`, which it stores through its
pointer. -/
def pipeFds : List Nat :=
  match k.currentInner with
  | none => []
  | some (_, inner) =>
      let (readFd, fdTable) := allocFd inner.fdTable
      let (writeFd, _) := allocFd (fdTable.set readFd (some k.nextFile))
      [readFd, writeFd]

end Kernel

/-- The call by the current process: its result, what it stores for the user,
and the new state. -/
def FdCall.run (k : Kernel) : FdCall → Except Halt (Int × List Nat × Kernel)
  | .sysOpen inode => (k.sysOpen inode).map fun r => (r.1, [], r.2)
  | .sysClose fd => (k.sysClose fd).map fun r => (r.1, [], r.2)
  | .sysDup fd => (k.sysDup fd).map fun r => (r.1, [], r.2)
  | .sysPipe => k.sysPipe.map fun r => (r.1, k.pipeFds, r.2)
  | .sysFork => k.sysFork.map fun r => (r.1, [], r.2)

/-- What happens to the tables: a call by process `p` with its result and what
it stored, the end of a zombie, or any other event. -/
inductive FdEvent where
  | call (p : Nat) (c : FdCall) (r : Int) (stored : List Nat)
  | reap (child : Nat)
  | event (e : KEvent)

/-- The event is a call by `q` or the end of `q`. -/
def FdEvent.By (q : Nat) : FdEvent → Prop
  | .call p _ _ _ => p = q
  | .reap child => child = q
  | .event _ => False

inductive FdStep : Kernel → FdEvent → Kernel → Prop
  | call {k k' : Kernel} {p : Nat} {inner : Pcb} {c : FdCall} {r : Int} {stored : List Nat} :
      k.currentInner = some (p, inner) → c.run k = .ok (r, stored, k') →
        FdStep k (.call p c r stored) k'
  | reap {k k' : Kernel} {p c : Nat} {inner : Pcb} {pid r : Int} {code : Int} :
      k.currentInner = some (p, inner) → inner.children.find? (k.reapable pid) = some c →
        k.sysWaitpid pid = .ok (r, some code, k') → FdStep k (.reap c) k'
  | event {k k' : Kernel} {e : KEvent} :
      Kernel.Plain e → k.perform e = .ok k' → FdStep k (.event e) k'

/-! ## Descriptors as finite maps -/

/-- For each process a finite map from its descriptors to file objects, and
what is known of the objects. -/
structure FdSystem where
  maps : Nat → Option (NumMap Nat)
  files : Nat → Option FileObj

namespace FdSystem

variable (s : FdSystem)

/-- Nothing refers to the object. -/
def Fresh (file : Nat) : Prop :=
  s.files file = none ∧ ∀ q m i, s.maps q = some m → m.lookup i ≠ some file

def setMap (p : Nat) (m : NumMap Nat) : FdSystem :=
  { s with maps := Function.update s.maps p (some m) }

def setFile (file : Nat) (obj : FileObj) : FdSystem :=
  { s with files := Function.update s.files file (some obj) }

end FdSystem

/-- The calls as they are meant. -/
inductive FdMapStep : FdSystem → FdEvent → FdSystem → Prop
  | opened {s : FdSystem} {p file : Nat} {m : NumMap Nat} (inode : OSInode)
      (hm : s.maps p = some m) (hfile : s.Fresh file) :
      FdMapStep s (.call p (.sysOpen (some inode)) m.leastFree [])
        (s.setMap p (m.insert m.leastFree file))
  | notOpened {s : FdSystem} (p : Nat) :
      FdMapStep s (.call p (.sysOpen none) (-1) []) s
  | close {s : FdSystem} {p fd : Nat} {m : NumMap Nat} (hm : s.maps p = some m) (hfd : fd ∈ m) :
      FdMapStep s (.call p (.sysClose fd) 0 []) (s.setMap p (m.erase fd))
  | closeFree {s : FdSystem} {p fd : Nat} {m : NumMap Nat} (hm : s.maps p = some m)
      (hfd : fd ∉ m) : FdMapStep s (.call p (.sysClose fd) (-1) []) s
  | dup {s : FdSystem} {p fd file : Nat} {m : NumMap Nat} (hm : s.maps p = some m)
      (hfd : m.lookup fd = some file) :
      FdMapStep s (.call p (.sysDup fd) m.leastFree []) (s.setMap p (m.insert m.leastFree file))
  | dupFree {s : FdSystem} {p fd : Nat} {m : NumMap Nat} (hm : s.maps p = some m)
      (hfd : fd ∉ m) : FdMapStep s (.call p (.sysDup fd) (-1) []) s
  /-- The read end gets the least free number, the write end the next one. -/
  | pipe {s : FdSystem} {p readFd writeFd readEnd writeEnd : Nat} {m : NumMap Nat} (ring : Nat)
      (hm : s.maps p = some m) (hread : s.Fresh readEnd) (hwrite : s.Fresh writeEnd)
      (hends : readEnd ≠ writeEnd) (hr : readFd = m.leastFree)
      (hw : writeFd = NumMap.leastFree (m.insert readFd readEnd)) (hlt : readFd < writeFd) :
      FdMapStep s (.call p .sysPipe 0 [readFd, writeFd])
        (((s.setMap p ((m.insert readFd readEnd).insert writeFd writeEnd)).setFile readEnd
          (.pipe true false ring)).setFile writeEnd (.pipe false true ring))
  | fork {s : FdSystem} {p child : Nat} {m : NumMap Nat} (pid : Int) (hm : s.maps p = some m)
      (hchild : s.maps child = none) :
      FdMapStep s (.call p .sysFork pid []) (s.setMap child m)
  | reap {s : FdSystem} (child : Nat) :
      FdMapStep s (.reap child) { s with maps := Function.update s.maps child none }
  | event {s : FdSystem} (e : KEvent) : FdMapStep s (.event e) s

namespace FdMapStep

variable {s s' : FdSystem} {e : FdEvent} {q : Nat} {m : NumMap Nat}

/-- A map is changed only by its own process. -/
theorem keeps (h : FdMapStep s e s') (hq : s.maps q = some m) (he : ¬ e.By q) :
    s'.maps q = some m := by
  have hother : ∀ {p : Nat} {x : Option (NumMap Nat)}, p ≠ q →
      Function.update s.maps p x q = some m := by
    intro p x hp
    rw [Function.update_of_ne (Ne.symm hp), hq]
  cases h with
  | opened inode hm hfile => exact hother he
  | notOpened p => exact hq
  | close hm hfd => exact hother he
  | closeFree hm hfd => exact hq
  | dup hm hfd => exact hother he
  | dupFree hm hfd => exact hq
  | pipe ring hm hread hwrite hends hr hw hlt => exact hother he
  | fork pid hm hchild =>
      refine hother ?_
      rintro rfl
      rw [hchild] at hq
      cases hq
  | reap child => exact hother he
  | event e => exact hq

/-- `close(fd)` leaves `fd` out of the map, whether or not it was there. -/
theorem after_close {p fd : Nat} {r : Int} (h : FdMapStep s (.call p (.sysClose fd) r []) s')
    (hm : s.maps p = some m) : s'.maps p = some (m.erase fd) := by
  cases h with
  | @close _ _ m' hm' hfd =>
      obtain rfl : m' = m := Option.some.inj (hm'.symm.trans hm)
      exact Function.update_self ..
  | @closeFree _ _ m' hm' hfd =>
      obtain rfl : m' = m := Option.some.inj (hm'.symm.trans hm)
      rw [hm, Option.some.injEq]
      refine Finmap.ext_lookup fun j => ?_
      by_cases hj : j = fd
      · subst hj
        rw [Finmap.lookup_erase, Finmap.lookup_eq_none.mpr hfd]
      · rw [Finmap.lookup_erase_ne hj]

theorem after_dup {p fd file : Nat} {r : Int} (h : FdMapStep s (.call p (.sysDup fd) r []) s')
    (hm : s.maps p = some m) (hfd : m.lookup fd = some file) :
    r = m.leastFree ∧ s'.maps p = some (m.insert m.leastFree file) := by
  cases h with
  | @dup _ _ file' m' hm' hfd' =>
      obtain rfl : m' = m := Option.some.inj (hm'.symm.trans hm)
      obtain rfl : file' = file := Option.some.inj (hfd'.symm.trans hfd)
      exact ⟨rfl, Function.update_self ..⟩
  | @dupFree _ _ m' hm' hfd' =>
      obtain rfl : m' = m := Option.some.inj (hm'.symm.trans hm)
      exact absurd (Finmap.mem_of_lookup_eq_some hfd) hfd'

end FdMapStep

/-! ## The kernel's tables -/

namespace Kernel

/-- What the descriptor tables stand for. -/
def fds (k : Kernel) : FdSystem where
  maps q := (k.procs q).map fun inner => tableMap inner.fdTable
  files := k.files

/-- Names of processes and of file objects are given out in order. -/
structure FdWf (k : Kernel) : Prop where
  procs : ∀ q, k.nextProc ≤ q → k.fds.maps q = none
  objs : ∀ q m i f, k.fds.maps q = some m → m.lookup i = some f → f < k.nextFile
  files : ∀ f, k.nextFile ≤ f → k.files f = none

variable {k k' : Kernel} {p : Nat} {inner : Pcb}

theorem boot_fdWf (cx : TrapContext) : (boot cx).FdWf where
  procs q hq := by
    have hq0 : q ≠ 0 := by
      rintro rfl
      exact Nat.not_succ_le_zero 0 hq
    simp [fds, boot, hq0]
  objs q m i f hm hf := by
    by_cases hq : q = 0
    · subst hq
      obtain rfl : tableMap [some 0, some 1, some 2] = m := Option.some.inj hm
      rw [lookup_tableMap] at hf
      show f < 3
      rcases i with _ | _ | _ | i
      · cases hf
        decide
      · cases hf
        decide
      · cases hf
        decide
      · cases hf
    · simp [fds, boot, hq] at hm
  files f hf := (boot_held cx).rings.files f hf

namespace FdWf

theorem fresh (h : k.FdWf) {file : Nat} (hfile : k.nextFile ≤ file) : k.fds.Fresh file := by
  refine ⟨h.files file hfile, fun q m i hm hf => ?_⟩
  have hlt := h.objs q m i file hm hf
  omega

theorem current_lt (h : k.FdWf) {m : NumMap Nat} (hp : k.fds.maps p = some m) : p < k.nextProc := by
  by_contra hge
  rw [h.procs p (by omega)] at hp
  cases hp

/-- One process gets a new map, of objects that have a name. -/
theorem setMap (h : k.FdWf) {q : Nat} {m : NumMap Nat}
    (hmaps : k'.fds.maps = Function.update k.fds.maps q (some m)) (hq : q < k'.nextProc)
    (hproc : k.nextProc ≤ k'.nextProc) (hfile : k.nextFile ≤ k'.nextFile)
    (hm : ∀ i f, m.lookup i = some f → f < k'.nextFile)
    (hfiles : ∀ f, k'.nextFile ≤ f → k'.files f = none) : k'.FdWf where
  procs q' hq' := by
    rw [hmaps, Function.update_of_ne (by omega)]
    exact h.procs q' (by omega)
  objs q' m' i f hm' hf := by
    rw [hmaps] at hm'
    by_cases hne : q' = q
    · subst hne
      rw [Function.update_self, Option.some.injEq] at hm'
      exact hm i f (hm' ▸ hf)
    · rw [Function.update_of_ne hne] at hm'
      have hlt := h.objs q' m' i f hm' hf
      omega
  files := hfiles

theorem of_eq (h : k.FdWf) (hfds : k'.fds = k.fds) (hnames : k'.names = k.names) : k'.FdWf := by
  simp only [names, Prod.mk.injEq] at hnames
  obtain ⟨hproc, hfile, hfiles⟩ := hnames
  refine ⟨?_, ?_, ?_⟩
  · rw [hfds, hproc]
    exact h.procs
  · rw [hfds, hfile]
    exact h.objs
  · rw [hfile, hfiles]
    exact h.files

end FdWf

theorem fds_current (hcur : k.currentInner = some (p, inner)) :
    k.fds.maps p = some (tableMap inner.fdTable) := by
  show (k.procs p).map _ = _
  rw [(currentInner_eq_some.mp hcur).2]
  rfl

/-! ### `alloc_fd` -/

theorem allocFd_spec (t : List (Option Nat)) :
    (allocFd t).1 = (tableMap t).leastFree ∧ (allocFd t).1 < (allocFd t).2.length
      ∧ tableMap (allocFd t).2 = tableMap t := by
  unfold allocFd
  cases hfind : t.findIdx? Option.isNone with
  | some fd =>
      obtain ⟨hlt, hleast⟩ := leastFree_tableMap_hole hfind
      exact ⟨hleast.symm, hlt, rfl⟩
  | none =>
      refine ⟨(leastFree_tableMap_full hfind).symm, ?_, tableMap_append_none t⟩
      rw [List.length_append]
      exact Nat.lt_succ_self _

/-- The slot that `alloc_fd` gives is filled. -/
theorem tableMap_install (t : List (Option Nat)) (file : Nat) :
    tableMap ((allocFd t).2.set (allocFd t).1 (some file))
      = (tableMap t).insert (tableMap t).leastFree file := by
  obtain ⟨hleast, hlt, hsame⟩ := allocFd_spec t
  rw [tableMap_set_some hlt, hsame, hleast]

theorem install_lt {t : List (Option Nat)} {n file : Nat}
    (ht : ∀ i a, (tableMap t).lookup i = some a → a < n) (hfile : file < n) (i a : Nat)
    (ha : (tableMap ((allocFd t).2.set (allocFd t).1 (some file))).lookup i = some a) : a < n := by
  rw [tableMap_install] at ha
  rcases NumMap.lookup_insert_some ha with rfl | hold
  · exact hfile
  · exact ht i a hold

/-! ### The calls -/

/-- The ring and the two ends of `make_pipe`. -/
def withPipe (k : Kernel) : Kernel :=
  { k with
    rings := Function.update k.rings k.nextRing
      (PipeRingBuffer.new.setWriteEnd (k.nextFile + 1))
    nextRing := k.nextRing + 1
    files := Function.update (Function.update k.files k.nextFile
      (some (.pipe true false k.nextRing))) (k.nextFile + 1) (some (.pipe false true k.nextRing))
    nextFile := k.nextFile + 2 }

/-- The table with the two ends in it. -/
def pipeTable (file : Nat) (t : List (Option Nat)) : List (Option Nat) :=
  let t := (allocFd t).2.set (allocFd t).1 (some file)
  (allocFd t).2.set (allocFd t).1 (some (file + 1))

theorem stored_ok {x : Except Halt (Int × Kernel)} {stored stored' : List Nat} {r : Int}
    (h : x.map (fun r => (r.1, stored, r.2)) = .ok (r, stored', k')) :
    x = .ok (r, k') ∧ stored' = stored := by
  cases x with
  | error e => cases h
  | ok a =>
      cases h
      exact ⟨rfl, rfl⟩

section Calls

variable (h : k.FdWf) (hcur : k.currentInner = some (p, inner))

include hcur

theorem sysOpen_some (inode : OSInode) :
    k.sysOpen (some inode) = .ok ((allocFd inner.fdTable).1,
      { k with nextFile := k.nextFile + 1 }.modifyProc p fun i =>
        { i with fdTable :=
            (allocFd inner.fdTable).2.set (allocFd inner.fdTable).1 (some k.nextFile) }) := by
  unfold sysOpen
  rw [hcur]

theorem sysDup_some {fd file : Nat} (hfd : inner.fdTable[fd]?.join = some file) :
    k.sysDup fd = .ok ((allocFd inner.fdTable).1, k.modifyProc p fun i =>
      { i with fdTable :=
          (allocFd inner.fdTable).2.set (allocFd inner.fdTable).1 (some file) }) := by
  unfold sysDup
  rw [hcur]
  dsimp only
  rw [hfd]

theorem sysPipe_eq :
    k.sysPipe = .ok (0, k.withPipe.modifyProc p fun i =>
      { i with fdTable := pipeTable k.nextFile inner.fdTable }) := by
  unfold sysPipe
  rw [hcur]
  rfl

theorem pipeFds_eq :
    k.pipeFds = [(allocFd inner.fdTable).1, (allocFd ((allocFd inner.fdTable).2.set
      (allocFd inner.fdTable).1 (some k.nextFile))).1] := by
  unfold pipeFds
  rw [hcur]

include h

/-- The current process gets the table `t`, of objects that have a name. -/
theorem FdWf.withTable (km : Kernel) (t : List (Option Nat)) (hprocs : km.procs = k.procs)
    (hproc : km.nextProc = k.nextProc) (hfile : k.nextFile ≤ km.nextFile)
    (hobjs : ∀ i a, (tableMap t).lookup i = some a → a < km.nextFile)
    (hfiles : ∀ a, km.nextFile ≤ a → km.files a = none) :
    (km.modifyProc p fun i => { i with fdTable := t }).fds
        = { k.fds.setMap p (tableMap t) with files := km.files }
      ∧ (km.modifyProc p fun i => { i with fdTable := t }).FdWf := by
  have hmaps : (km.modifyProc p fun i => { i with fdTable := t }).fds.maps
      = Function.update k.fds.maps p (some (tableMap t)) := by
    funext q
    show ((Function.update km.procs p _) q).map _ = _
    rw [hprocs, (currentInner_eq_some.mp hcur).2]
    by_cases hq : q = p
    · subst hq
      rw [Function.update_self, Function.update_self]
      rfl
    · rw [Function.update_of_ne hq, Function.update_of_ne hq]
      rfl
  refine ⟨by unfold FdSystem.setMap; rw [← hmaps]; rfl, ?_⟩
  have hlt := h.current_lt (fds_current hcur)
  exact h.setMap hmaps (hproc ▸ hlt) (Nat.le_of_eq hproc.symm) hfile hobjs hfiles

theorem FdWf.current_objs {n : Nat} (hn : k.nextFile ≤ n) (i a : Nat)
    (ha : (tableMap inner.fdTable).lookup i = some a) : a < n :=
  Nat.lt_of_lt_of_le (h.objs p _ i a (fds_current hcur) ha) hn

theorem open_refines {inode : Option OSInode} {r : Int} (hrun : k.sysOpen inode = .ok (r, k')) :
    FdMapStep k.fds (.call p (.sysOpen inode) r []) k'.fds ∧ k'.FdWf := by
  cases inode with
  | none =>
      unfold sysOpen at hrun
      rw [hcur] at hrun
      cases hrun
      exact ⟨.notOpened p, h⟩
  | some inode =>
      rw [sysOpen_some hcur, Except.ok.injEq, Prod.mk.injEq] at hrun
      obtain ⟨rfl, rfl⟩ := hrun
      obtain ⟨hfds, hwf⟩ := h.withTable hcur { k with nextFile := k.nextFile + 1 } _ rfl rfl
        (Nat.le_succ _)
        (install_lt (h.current_objs hcur (Nat.le_succ _)) (Nat.lt_succ_self k.nextFile))
        fun a ha => h.files a (Nat.le_of_succ_le ha)
      refine ⟨?_, hwf⟩
      rw [hfds, tableMap_install, (allocFd_spec _).1]
      exact .opened inode (fds_current hcur) (h.fresh (Nat.le_refl _))

theorem close_refines {fd : Nat} {r : Int} (hrun : k.sysClose fd = .ok (r, k')) :
    FdMapStep k.fds (.call p (.sysClose fd) r []) k'.fds ∧ k'.FdWf := by
  unfold sysClose at hrun
  rw [hcur] at hrun
  dsimp only at hrun
  split at hrun
  · next hfd =>
      cases hrun
      refine ⟨.closeFree (fds_current hcur) ?_, h⟩
      rw [mem_tableMap, hfd]
      exact Bool.false_ne_true
  · next file hfd =>
      have hsame : (k.modifyProc p fun i => { i with fdTable := i.fdTable.set fd none })
          = k.modifyProc p fun i => { i with fdTable := inner.fdTable.set fd none } := by
        unfold modifyProc
        rw [(currentInner_eq_some.mp hcur).2]
        rfl
      rw [hsame] at hrun
      cases hrun
      have hobjs : ∀ i a, (tableMap (inner.fdTable.set fd none)).lookup i = some a →
          a < k.nextFile := by
        intro i a ha
        rw [tableMap_set_none] at ha
        exact h.current_objs hcur (Nat.le_refl _) i a (NumMap.lookup_erase_some ha)
      obtain ⟨hfds, hwf⟩ := h.withTable hcur k _ rfl rfl (Nat.le_refl _) hobjs h.files
      refine ⟨?_, hwf⟩
      rw [hfds, tableMap_set_none]
      refine .close (fds_current hcur) ?_
      rw [mem_tableMap, hfd, Option.isSome_some]

theorem dup_refines {fd : Nat} {r : Int} (hrun : k.sysDup fd = .ok (r, k')) :
    FdMapStep k.fds (.call p (.sysDup fd) r []) k'.fds ∧ k'.FdWf := by
  cases hfd : inner.fdTable[fd]?.join with
  | none =>
      unfold sysDup at hrun
      simp only [hcur, hfd] at hrun
      cases hrun
      refine ⟨.dupFree (fds_current hcur) ?_, h⟩
      rw [mem_tableMap, hfd]
      exact Bool.false_ne_true
  | some file =>
      rw [sysDup_some hcur hfd, Except.ok.injEq, Prod.mk.injEq] at hrun
      obtain ⟨rfl, rfl⟩ := hrun
      have hlookup : (tableMap inner.fdTable).lookup fd = some file := by rw [lookup_tableMap, hfd]
      have hlt := h.objs p _ fd file (fds_current hcur) hlookup
      obtain ⟨hfds, hwf⟩ := h.withTable hcur k _ rfl rfl (Nat.le_refl _)
        (install_lt (h.current_objs hcur (Nat.le_refl _)) hlt) h.files
      refine ⟨?_, hwf⟩
      rw [hfds, tableMap_install, (allocFd_spec _).1]
      exact .dup (fds_current hcur) hlookup

theorem pipe_refines {r : Int} (hrun : k.sysPipe = .ok (r, k')) :
    FdMapStep k.fds (.call p .sysPipe r k.pipeFds) k'.fds ∧ k'.FdWf := by
  rw [sysPipe_eq hcur, Except.ok.injEq, Prod.mk.injEq] at hrun
  obtain ⟨rfl, rfl⟩ := hrun
  have hreadObjs := install_lt (h.current_objs hcur (Nat.le_add_right _ 2))
    (show k.nextFile < k.nextFile + 2 by omega)
  have hobjs := install_lt hreadObjs (show k.nextFile + 1 < k.nextFile + 2 by omega)
  have hfiles : ∀ a, k.nextFile + 2 ≤ a → k.withPipe.files a = none := by
    intro a ha
    show Function.update (Function.update k.files _ _) _ _ a = none
    rw [Function.update_of_ne (by omega), Function.update_of_ne (by omega)]
    exact h.files a (by omega)
  obtain ⟨hfds, hwf⟩ := h.withTable hcur k.withPipe (pipeTable k.nextFile inner.fdTable) rfl rfl
    (Nat.le_add_right _ 2) hobjs hfiles
  refine ⟨?_, hwf⟩
  have hnext : k.nextFile ≠ k.nextFile + 1 := by omega
  have hstep := FdMapStep.pipe k.nextRing (fds_current hcur) (h.fresh (Nat.le_refl k.nextFile))
    (h.fresh (Nat.le_succ k.nextFile)) hnext rfl rfl (NumMap.leastFree_lt_insert _ _)
  rw [hfds, pipeFds_eq hcur, pipeTable, tableMap_install, (allocFd_spec _).1,
    (allocFd_spec _).1, ← (allocFd_spec inner.fdTable).1, tableMap_install,
    (allocFd_spec inner.fdTable).1]
  exact hstep

theorem fork_refines {r : Int} (hrun : k.sysFork = .ok (r, k')) :
    FdMapStep k.fds (.call p .sysFork r []) k'.fds ∧ k'.FdWf := by
  have hchild := h.procs k.nextProc (Nat.le_refl _)
  obtain ⟨p', inner', hcur', -, rfl⟩ := fork_ok (Option.map_eq_none_iff.mp hchild) hrun
  obtain ⟨rfl, rfl⟩ : p' = p ∧ inner' = inner := by simpa [hcur] using hcur'.symm
  have hfds : (k.forkedBy p' inner').fds = k.fds.setMap k.nextProc (tableMap inner'.fdTable) := by
    unfold fds FdSystem.setMap
    congr 1
    funext q
    by_cases hq : q = k.nextProc
    · subst hq
      rw [Function.update_self, procs_forkedBy_new]
      rfl
    · rw [Function.update_of_ne hq]
      exact field_forkedBy (fun i => tableMap i.fdTable) (fun _ _ => rfl) hq
  rw [hfds]
  refine ⟨.fork r (fds_current hcur) hchild, ?_⟩
  exact h.setMap (congrArg FdSystem.maps hfds) (Nat.lt_succ_self _) (Nat.le_succ _) (Nat.le_refl _)
    (fun i f hf => h.objs p' _ i f (fds_current hcur) hf) h.files

theorem call_refines {c : FdCall} {r : Int} {stored : List Nat}
    (hrun : c.run k = .ok (r, stored, k')) :
    FdMapStep k.fds (.call p c r stored) k'.fds ∧ k'.FdWf := by
  cases c with
  | sysOpen inode =>
      obtain ⟨hok, rfl⟩ := stored_ok hrun
      exact open_refines h hcur hok
  | sysClose fd =>
      obtain ⟨hok, rfl⟩ := stored_ok hrun
      exact close_refines h hcur hok
  | sysDup fd =>
      obtain ⟨hok, rfl⟩ := stored_ok hrun
      exact dup_refines h hcur hok
  | sysPipe =>
      obtain ⟨hok, rfl⟩ := stored_ok hrun
      exact pipe_refines h hcur hok
  | sysFork =>
      obtain ⟨hok, rfl⟩ := stored_ok hrun
      exact fork_refines h hcur hok

end Calls

/-- No call fails to return. -/
theorem call_returns (hcur : k.currentInner = some (p, inner)) (c : FdCall) :
    ∃ r stored k', c.run k = .ok (r, stored, k') := by
  have hmap : ∀ {x : Except Halt (Int × Kernel)} {stored : List Nat}, (∃ r k', x = .ok (r, k')) →
      ∃ (r : Int) (s : List Nat) (k' : Kernel),
        x.map (fun a => (a.1, stored, a.2)) = .ok (r, s, k') := by
    rintro x stored ⟨r, k', rfl⟩
    exact ⟨r, stored, k', rfl⟩
  cases c with
  | sysOpen inode =>
      refine hmap ?_
      cases inode with
      | none => exact ⟨-1, k, by unfold sysOpen; rw [hcur]⟩
      | some inode => exact ⟨_, _, sysOpen_some hcur inode⟩
  | sysClose fd =>
      refine hmap ?_
      unfold sysClose
      rw [hcur]
      dsimp only
      split
      · exact ⟨_, _, rfl⟩
      · exact ⟨_, _, rfl⟩
  | sysDup fd =>
      refine hmap ?_
      unfold sysDup
      rw [hcur]
      dsimp only
      split
      · exact ⟨_, _, rfl⟩
      · exact ⟨_, _, rfl⟩
  | sysPipe => exact hmap ⟨_, _, sysPipe_eq hcur⟩
  | sysFork =>
      refine hmap ?_
      unfold sysFork
      rw [hcur]
      exact ⟨_, _, rfl⟩

theorem reap_refines (h : k.FdWf) {pid r code : Int} {c : Nat}
    (hcur : k.currentInner = some (p, inner))
    (hfind : inner.children.find? (k.reapable pid) = some c)
    (hrun : k.sysWaitpid pid = .ok (r, some code, k')) :
    k'.fds = { k.fds with maps := Function.update k.fds.maps c none } ∧ k'.FdWf := by
  obtain ⟨hcode, -⟩ | ⟨p', inner', c', pids, hcur', hfind', -, -, -, rfl⟩ := waitpid_ok hrun
  · cases hcode
  obtain ⟨rfl, rfl⟩ : p' = p ∧ inner' = inner := by simpa [hcur] using hcur'.symm
  obtain rfl : c' = c := Option.some.inj (hfind'.symm.trans hfind)
  have hmaps : (k.reaped p' pid c' pids).fds.maps = Function.update k.fds.maps c' none := by
    funext q
    by_cases hq : q = c'
    · subst hq
      rw [Function.update_self]
      exact congrArg (Option.map _) procs_reaped_self
    · rw [Function.update_of_ne hq]
      exact field_reaped (fun i => tableMap i.fdTable) (fun _ _ => rfl) hq
  refine ⟨by rw [← hmaps]; rfl, fun q hq => ?_, fun q m i f hm hf => ?_, h.files⟩
  · rw [hmaps]
    by_cases hc : q = c'
    · subst hc
      exact Function.update_self ..
    · rw [Function.update_of_ne hc]
      exact h.procs q hq
  · rw [hmaps] at hm
    by_cases hc : q = c'
    · subst hc
      rw [Function.update_self] at hm
      cases hm
    · rw [Function.update_of_ne hc] at hm
      exact h.objs q m i f hm hf

theorem fds_untouched : Untouched fun inner => tableMap inner.fdTable where
  status _ _ := rfl
  sig _ _ := rfl
  used _ _ := rfl
  tree _ _ _ _ _ := rfl

theorem event_fds {e : KEvent} (he : Plain e) (h : k.perform e = .ok k') : k'.fds = k.fds := by
  have hsame := SameField.perform fds_untouched he h
  have hnames := names_perform he h
  simp only [names, Prod.mk.injEq] at hnames
  unfold fds
  rw [hnames.2.2]
  congr 1
  funext q
  exact hsame q

end Kernel

open Kernel

/-- A step of the kernel is a step on the maps. -/
theorem FdStep.refines {k k' : Kernel} {e : FdEvent} (hs : FdStep k e k') (h : k.FdWf) :
    FdMapStep k.fds e k'.fds ∧ k'.FdWf := by
  cases hs with
  | call hcur hrun => exact call_refines h hcur hrun
  | reap hcur hfind hrun =>
      obtain ⟨hfds, hwf⟩ := reap_refines h hcur hfind hrun
      rw [hfds]
      exact ⟨.reap _, hwf⟩
  | event he hperf =>
      have hfds := event_fds he hperf
      refine ⟨?_, h.of_eq hfds (names_perform he hperf)⟩
      rw [hfds]
      exact .event _

theorem Runs.fds_refine {k k' : Kernel} {tr : List FdEvent} (hrun : Runs FdStep k tr k')
    (h : k.FdWf) : Runs FdMapStep k.fds tr k'.fds ∧ k'.FdWf := by
  have hstep : ∀ a e b s, (s = Kernel.fds a ∧ a.FdWf) → FdStep a e b →
      ∃ s', (s' = Kernel.fds b ∧ b.FdWf) ∧ FdMapStep s e s' := by
    rintro a e b s ⟨rfl, hwf⟩ hs
    obtain ⟨hmap, hwf'⟩ := hs.refines hwf
    exact ⟨b.fds, ⟨rfl, hwf'⟩, hmap⟩
  obtain ⟨s, ⟨rfl, hwf⟩, hmaps⟩ := hrun.simulation (R := fun a s => s = Kernel.fds a ∧ a.FdWf)
    hstep ⟨rfl, h⟩
  exact ⟨hmaps, hwf⟩

theorem Runs.fd_keeps {s s' : FdSystem} {tr : List FdEvent} {q : Nat} {m : NumMap Nat}
    (hrun : Runs FdMapStep s tr s') (hm : s.maps q = some m) (hq : ∀ e ∈ tr, ¬ e.By q) :
    s'.maps q = some m := by
  induction hrun with
  | nil => exact hm
  | snoc _ hs ih =>
      rw [List.forall_mem_append] at hq
      exact hs.keeps (ih hq.1) (hq.2 _ (List.mem_singleton_self _))

/-- In every run the descriptor tables are finite maps: each call does to them
what `FdMapStep` says, and returns; the map of a process changes by its own
calls only, which makes a child's map independent of its parent's; and `dup`
after `close(fd)` gives `fd` when the numbers below are in use, whatever the
others do in between. -/
theorem fd_tables_are_maps {cx : TrapContext} {tr : List FdEvent} {k : Kernel}
    (hrun : Runs FdStep (Kernel.boot cx) tr k) :
    Runs FdMapStep (Kernel.boot cx).fds tr k.fds
      ∧ (∀ p inner c, k.currentInner = some (p, inner) →
        ∃ r stored k', FdCall.run k c = .ok (r, stored, k'))
      ∧ (∀ tr' k' q m, Runs FdStep k tr' k' → k.fds.maps q = some m → (∀ e ∈ tr', ¬ e.By q) →
        k'.fds.maps q = some m)
      ∧ ∀ p m fd fd' file r r' tr' k₁ k₂ k₃, k.fds.maps p = some m → (∀ i < fd, i ∈ m) →
        fd' ≠ fd → m.lookup fd' = some file → FdStep k (.call p (.sysClose fd) r []) k₁ →
        Runs FdStep k₁ tr' k₂ → (∀ e ∈ tr', ¬ e.By p) →
        FdStep k₂ (.call p (.sysDup fd') r' []) k₃ →
        r' = fd ∧ k₃.fds.maps p = some ((m.erase fd).insert fd file) := by
  obtain ⟨hmaps, hwf⟩ := hrun.fds_refine (boot_fdWf cx)
  refine ⟨hmaps, fun p inner c hcur => call_returns hcur c, fun tr' k' q m hrun' hm hq => ?_, ?_⟩
  · exact (hrun'.fds_refine hwf).1.fd_keeps hm hq
  · intro p m fd fd' file r r' tr' k₁ k₂ k₃ hm hbelow hne hfile hclose hrun' hq hdup
    obtain ⟨hclose', hwf₁⟩ := hclose.refines hwf
    have hm₁ := hclose'.after_close hm
    obtain ⟨hmaps', hwf₂⟩ := hrun'.fds_refine hwf₁
    have hm₂ := hmaps'.fd_keeps hm₁ hq
    have hfile' : (m.erase fd).lookup fd' = some file := by
      rw [Finmap.lookup_erase_ne hne, hfile]
    have hafter := (hdup.refines hwf₂).1.after_dup hm₂ hfile'
    rwa [NumMap.leastFree_erase hbelow] at hafter

/-- `initproc` makes a pipe, closes its console input and reads from the pipe
as descriptor 0. -/
theorem fd_tables_redirect :
    ∃ cx tr k m, Runs FdStep (Kernel.boot cx) tr k ∧ Runs FdMapStep (Kernel.boot cx).fds tr k.fds
      ∧ k.fds.maps 0 = some m ∧ m.lookup 0 = some 3 := by
  have hfetch : FdStep (aloneReady 0) (.event .fetch) (aloneRunning 0) :=
    .event trivial (congrArg Except.ok (alone_runProcess 0))
  obtain ⟨k₁, k₂, k₃, hpipe, hclose, hdup, hm⟩ : ∃ k₁ k₂ k₃,
      FdStep (aloneRunning 0) (.call 0 .sysPipe 0 [3, 4]) k₁
        ∧ FdStep k₁ (.call 0 (.sysClose 0) 0 []) k₂ ∧ FdStep k₂ (.call 0 (.sysDup 3) 0 []) k₃
        ∧ k₁.fds.maps 0 = some (tableMap [some 0, some 1, some 2, some 3, some 4]) :=
    ⟨_, _, _, .call rfl rfl, .call rfl rfl, .call rfl rfl, rfl⟩
  have hrun := (Runs.single hfetch).snoc hpipe
  obtain ⟨-, -, -, hredirect⟩ := fd_tables_are_maps hrun
  obtain ⟨-, hm₃⟩ := hredirect 0 _ 0 3 3 0 0 [] k₂ k₂ k₃ hm
    (fun i hi => absurd hi (Nat.not_lt_zero i))
    (by decide) (lookup_tableMap _ 3) hclose (.nil k₂) (fun e he => absurd he List.not_mem_nil) hdup
  have hrun₃ := (hrun.snoc hclose).snoc hdup
  exact ⟨_, _, k₃, _, hrun₃, (fd_tables_are_maps hrun₃).1, hm₃, Finmap.lookup_insert _⟩

end Nimloth

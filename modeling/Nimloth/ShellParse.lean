import Mathlib.Tactic.Common
import Nimloth.WordSplit

/-!
# The shell's command line

`ProcessArguments::new` and the part of `main` in
`user/src/bin/user_shell.rs` that splits a line into commands and checks
their redirections. `new` indexes the word after `<` and after `>`
without asking whether there is one, so a command that ends with its
operator panics; on every other command it returns
(`shell_parse_iff`).
-/

namespace Nimloth

/-- A `String` and where its buffer is. -/
structure CString where
  text : String
  ptr : Nat

structure ProcessArguments where
  input : String
  output : String
  argsCopy : List CString
  argsAddr : List Nat

/-- `s.split(c)`. -/
def splitChar (s : String) (c : Char) : List String := (s.toList.splitOn c).map String.ofList

def words (command : String) : List String :=
  (splitChar command ' ').filter fun arg => !arg.isEmpty

/-- `string.push_str(arg); string.push('\0')`. -/
def terminate (arg : String) : String := arg.push '\x00'

/-- The words as strings of their own; `alloc` is where the allocator puts the
buffer of each. -/
def terminated (alloc : Nat → Nat) (ws : List String) : List CString :=
  ws.mapIdx fun i arg => ⟨terminate arg, alloc i⟩

/-- The search for one of the operators and the removal of it and its file;
`none` is the panic of `args_copy[idx + 1]`. -/
def redirect (op : String) (argsCopy : List CString) : Option (String × List CString) :=
  match argsCopy.findIdx? fun arg => arg.text == op with
  | none => some ("", argsCopy)
  | some idx =>
      match argsCopy[idx + 1]? with
      | none => none
      | some file => some (file.text, argsCopy.take idx ++ argsCopy.drop (idx + 2))

/-- `ProcessArguments::new`. -/
def ProcessArguments.new (alloc : Nat → Nat) (command : String) : Option ProcessArguments := do
  let argsCopy := terminated alloc (words command)
  let (input, argsCopy) ← redirect "<\x00" argsCopy
  let (output, argsCopy) ← redirect ">\x00" argsCopy
  let argsAddr := argsCopy.map CString.ptr ++ [0]
  some { input, output, argsCopy, argsAddr }

/-! ## The law -/

/-- The words of the command with their redirections. -/
abbrev Redirects (ws : List String) : Prop := WellFormed (· == "<") (· == ">") ws

/-- The operands of the two operators, the other words with their terminators,
and the addresses of those. -/
structure ParsedAs (alloc : Nat → Nat) (ws : List String) (p : ProcessArguments) : Prop where
  input : p.input = ((operand (· == "<") ws).map terminate).getD ""
  output : p.output = ((operand (· == ">") ws).map terminate).getD ""
  args : p.argsCopy.map CString.text
    = (remaining (fun w => w == "<" || w == ">") ws).map terminate
  own : p.argsCopy.Sublist (terminated alloc ws)
  addr : p.argsAddr = p.argsCopy.map CString.ptr ++ [0]

/-- No command makes `new` panic, and one with well-formed redirections is taken
apart. -/
def ParseLaw (alloc : Nat → Nat) (command : String) : Prop :=
  ∃ p, ProcessArguments.new alloc command = some p
    ∧ (Redirects (words command) → ParsedAs alloc (words command) p)

/-- The last word is an operator: `<`, or what is `>` once `<` and its file are
taken out. -/
def EndsInOperator (ws : List String) : Prop :=
  Dangling (· == "<") ws ∨ Dangling (· == ">") (dropOperand (· == "<") ws)

/-! ## Words and their strings -/

section Texts

variable {l : List CString} {ws : List String}

theorem terminate_beq (op : String) :
    (fun s => s == terminate op) ∘ terminate = fun w => w == op := by
  funext w
  simp [terminate, String.push_inj]

theorem terminated_texts (alloc : Nat → Nat) (ws : List String) :
    (terminated alloc ws).map CString.text = ws.map terminate := by
  refine List.ext_getElem (by simp [terminated]) fun i h₁ h₂ => ?_
  simp [terminated]

variable (op : String) (h : l.map CString.text = ws.map terminate)

include h

theorem dangling_texts :
    Dangling (fun arg : CString => arg.text == terminate op) l ↔ Dangling (· == op) ws := by
  have hl := Dangling.map_iff (p := (· == terminate op)) (l := l) CString.text
  rw [h, Dangling.map_iff, terminate_beq] at hl
  exact hl.symm

theorem operand_texts :
    (operand (fun arg : CString => arg.text == terminate op) l).map CString.text
      = (operand (· == op) ws).map terminate := by
  have hl := operand_map (p := (· == terminate op)) (l := l) CString.text
  rw [h, operand_map, terminate_beq] at hl
  exact hl.symm

theorem dropOperand_texts :
    (dropOperand (fun arg : CString => arg.text == terminate op) l).map CString.text
      = (dropOperand (· == op) ws).map terminate := by
  have hl := dropOperand_map (p := (· == terminate op)) (l := l) CString.text
  rw [h, dropOperand_map, terminate_beq] at hl
  exact hl.symm

theorem redirect_dangling (hd : Dangling (· == op) ws) : redirect (terminate op) l = none := by
  obtain ⟨i, hi, hlast⟩ := (dangling_texts op h).mpr hd
  unfold redirect
  simp only [hi, List.getElem?_eq_none (Nat.le_of_eq hlast.symm)]

theorem redirect_some (hd : ¬ Dangling (· == op) ws) :
    redirect (terminate op) l = some (((operand (· == op) ws).map terminate).getD "",
      dropOperand (fun arg => arg.text == terminate op) l) := by
  rw [← operand_texts op h]
  unfold redirect
  cases hi : l.findIdx? fun arg => arg.text == terminate op with
  | none =>
      obtain ⟨hop, hdrop⟩ := operand_of_no_findIdx? hi
      rw [hop, hdrop]
      rfl
  | some i =>
      obtain ⟨hop, hdrop⟩ := operand_of_findIdx? hi
      have hlt : i + 1 < l.length := by
        have hlt := (List.findIdx?_eq_some_iff_getElem.mp hi).1
        have hne : i + 1 ≠ l.length := fun heq => hd ((dangling_texts op h).mp ⟨i, hi, heq⟩)
        omega
      rw [hop, hdrop]
      dsimp only
      rw [List.getElem?_eq_getElem hlt]
      rfl

end Texts

/-! ## Parsing -/

theorem redirects_apart {w : String} (hw : (w == "<") = true) : (w == ">") = false := by
  rw [beq_iff_eq.mp hw]
  rfl

theorem new_panics (alloc : Nat → Nat) {command : String} (h : EndsInOperator (words command)) :
    ProcessArguments.new alloc command = none := by
  have htexts := terminated_texts alloc (words command)
  have hin : "<\x00" = terminate "<" := rfl
  have hout : ">\x00" = terminate ">" := rfl
  unfold ProcessArguments.new
  dsimp only
  rw [hin, hout]
  by_cases hd : Dangling (· == "<") (words command)
  · rw [redirect_dangling "<" htexts hd]
    rfl
  · rw [redirect_some "<" htexts hd]
    have hd' := h.resolve_left hd
    simp only [Option.bind_eq_bind, Option.bind_some]
    rw [redirect_dangling ">" (dropOperand_texts "<" htexts) hd']
    rfl

theorem new_returns (alloc : Nat → Nat) {command : String} (h : ¬ EndsInOperator (words command)) :
    ParseLaw alloc command := by
  have htexts := terminated_texts alloc (words command)
  have htexts' := dropOperand_texts "<" htexts
  have hin : "<\x00" = terminate "<" := rfl
  have hout : ">\x00" = terminate ">" := rfl
  obtain ⟨hd, hd'⟩ := not_or.mp h
  unfold ParseLaw ProcessArguments.new
  dsimp only
  rw [hin, hout, redirect_some "<" htexts hd]
  simp only [Option.bind_eq_bind, Option.bind_some]
  rw [redirect_some ">" htexts' hd', Option.bind_some]
  refine ⟨_, rfl, fun hws => ?_⟩
  obtain ⟨-, hoperand, hrest⟩ := hws.dropOperands fun _ => redirects_apart
  refine ⟨rfl, ?_, ?_, ?_, rfl⟩
  · rw [hoperand]
  · rw [dropOperand_texts ">" htexts', hrest]
  · exact (dropOperand_sublist ..).trans (dropOperand_sublist ..)

/-- The commands of a line, parsed from the one at place `i` on. -/
def parseCommands (alloc : Nat → Nat → Nat) : Nat → List String → Option (List ProcessArguments)
  | _, [] => some []
  | i, cmd :: cmds => do
      let p ← ProcessArguments.new (alloc i) cmd
      let ps ← parseCommands alloc (i + 1) cmds
      some (p :: ps)

/-- The line split at `|`. -/
def parseLine (alloc : Nat → Nat → Nat) (line : String) : Option (List ProcessArguments) :=
  parseCommands alloc 0 (splitChar line '|')

/-- The test in the loop of `main` that clears `valid`, at place `i` of `n`. -/
def invalidAt (n i : Nat) (processArgs : ProcessArguments) : Bool :=
  if i = 0 then !processArgs.output.isEmpty
  else if i = n - 1 then !processArgs.input.isEmpty
  else !processArgs.output.isEmpty || !processArgs.input.isEmpty

def valid (list : List ProcessArguments) : Bool :=
  if list.length = 1 then true
  else list.zipIdx.all fun (processArgs, i) => !invalidAt list.length i processArgs

theorem parseCommands_isSome (alloc : Nat → Nat → Nat) (i : Nat) (cmds : List String) :
    (parseCommands alloc i cmds).isSome ↔ ∀ cmd ∈ cmds, ¬ EndsInOperator (words cmd) := by
  induction cmds generalizing i with
  | nil => exact iff_of_true rfl fun cmd hcmd => absurd hcmd List.not_mem_nil
  | cons cmd cmds ih =>
      rw [parseCommands, List.forall_mem_cons, ← ih (i + 1)]
      by_cases hends : EndsInOperator (words cmd)
      · rw [new_panics (alloc i) hends]
        exact iff_of_false Bool.false_ne_true fun h => h.1 hends
      · obtain ⟨p, hp, -⟩ := new_returns (alloc i) hends
        rw [hp, and_iff_right hends]
        cases parseCommands alloc (i + 1) cmds <;> rfl

/-- A line makes the shell panic exactly if one of its commands does. -/
theorem parseLine_isSome (alloc : Nat → Nat → Nat) (line : String) :
    (parseLine alloc line).isSome
      ↔ ∀ cmd ∈ splitChar line '|', ¬ EndsInOperator (words cmd) :=
  parseCommands_isSome alloc 0 _

theorem invalidAt_eq_false {n i : Nat} {p : ProcessArguments} (hn : n ≠ 1) (hi : i < n) :
    invalidAt n i p = false ↔ (0 < i → p.input = "") ∧ (i + 1 < n → p.output = "") := by
  have hempty : ∀ s : String, (!s.isEmpty) = false ↔ s = "" := fun s => by
    rw [Bool.not_eq_false', String.isEmpty_iff]
  unfold invalidAt
  split
  · next h0 =>
      subst h0
      rw [hempty, and_iff_right fun h => absurd h (Nat.lt_irrefl 0)]
      exact ⟨fun h _ => h, fun h => h (by omega)⟩
  · next h0 =>
      split
      · next hlast =>
          rw [hempty, and_iff_left fun h => absurd h (by omega)]
          exact ⟨fun h _ => h, fun h => h (by omega)⟩
      · next hlast =>
          rw [Bool.or_eq_false_iff, hempty, hempty]
          exact ⟨fun h => ⟨fun _ => h.2, fun _ => h.1⟩,
            fun h => ⟨h.2 (by omega), h.1 (by omega)⟩⟩

/-- The commands of a pipeline that is accepted have no redirection where a pipe
goes. -/
theorem valid_iff (list : List ProcessArguments) :
    valid list = true ↔ list.length = 1 ∨ ∀ i p, list[i]? = some p →
      (0 < i → p.input = "") ∧ (i + 1 < list.length → p.output = "") := by
  unfold valid
  split
  · next hone => exact iff_of_true rfl (.inl hone)
  · next hone =>
      rw [List.all_eq_true, or_iff_right hone]
      have hlt : ∀ {i p}, list[i]? = some p → i < list.length := fun hp =>
        (List.getElem?_eq_some_iff.mp hp).1
      constructor
      · intro h i p hp
        have hi := h (p, i) (List.mem_zipIdx_iff_getElem?.mpr hp)
        rw [Bool.not_eq_true'] at hi
        exact (invalidAt_eq_false hone (hlt hp)).mp hi
      · rintro h ⟨p, i⟩ hpi
        have hp := List.mem_zipIdx_iff_getElem?.mp hpi
        dsimp only
        rw [Bool.not_eq_true']
        exact (invalidAt_eq_false hone (hlt hp)).mpr (h i p hp)

end Nimloth

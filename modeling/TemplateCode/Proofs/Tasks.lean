import TemplateCode.Project.Session
import TemplateCode.Proofs.Storing

/-!
# What tasks do to a machine

A task that runs on a machine gives a result or a failure, and a machine in either case.

* `Machine.perform`: both of them, `Machine.perform_bind`: of one task after another.
* `Machine.perform_readText`, `Machine.perform_writeText`: reading leaves the machine as it is, writing
  changes the file system.
* `Machine.text?_of_perform_writeText`: a text that was written is the text that is read.
-/

namespace TemplateCode

namespace Machine

variable {α β : Type}

/-- What a task gives on a machine, and the machine afterwards. -/
def perform (machine : Machine) (task : Task (StateM Machine) α) : Except Failure α × Machine :=
  task.run.run machine

/-- The second task runs on the machine that the first one leaves, if that gives a result. -/
theorem perform_bind (machine : Machine) (task : Task (StateM Machine) α)
    (next : α → Task (StateM Machine) β) :
    machine.perform (task >>= next) =
      match machine.perform task with
      | (.ok a, later) => later.perform (next a)
      | (.error failure, later) => (.error failure, later) := by
  unfold perform ExceptT.run StateT.run
  simp only [bind, ExceptT.bind, ExceptT.mk, StateT.bind, ExceptT.bindCont]
  obtain ⟨failure | a, later⟩ := task machine <;> rfl

theorem perform_bind_of_ok {machine later : Machine} {task : Task (StateM Machine) α} {a : α}
    (h : machine.perform task = (.ok a, later)) (next : α → Task (StateM Machine) β) :
    machine.perform (task >>= next) = later.perform (next a) := by
  rw [perform_bind, h]

theorem perform_bind_of_error {machine later : Machine} {task : Task (StateM Machine) α} {failure : Failure}
    (h : machine.perform task = (.error failure, later)) (next : α → Task (StateM Machine) β) :
    machine.perform (task >>= next) = (.error failure, later) := by
  rw [perform_bind, h]

/-! ## Reading -/

/-- The text of a file, if there is one at the path. -/
def text? (machine : Machine) (path : Path) : Option String :=
  (machine.disk.read machine.here path).bind String.fromUTF8?

theorem perform_readText (machine : Machine) (path : Path) :
    machine.perform (readText path) =
      ((machine.text? path).elim (.error (.unreadable path)) .ok, machine) := by
  have hread : machine.perform (Host.read path) = (.ok (machine.disk.read machine.here path), machine) := rfl
  rw [readText, perform_bind_of_ok hread, text?]
  cases (machine.disk.read machine.here path).bind String.fromUTF8? with
  | none => rfl
  | some text => rfl

/-! ## Writing -/

theorem perform_write (machine : Machine) (path : Path) (content : ByteArray) :
    machine.perform (Host.write path content) =
      (.ok (machine.disk.write machine.here path content).1,
        { machine with disk := (machine.disk.write machine.here path content).2 }) := rfl

/-- The file system is as writing leaves it, whether that succeeds or not. -/
theorem perform_writeText (machine : Machine) (path : Path) (text : String) :
    machine.perform (writeText path text) =
      (if (machine.disk.write machine.here path text.toUTF8).1 then .ok () else .error (.unwritable path),
        { machine with disk := (machine.disk.write machine.here path text.toUTF8).2 }) := by
  rw [writeText, perform_bind_of_ok (perform_write machine path text.toUTF8)]
  cases (machine.disk.write machine.here path text.toUTF8).1 <;> rfl

/-- **A text that was written** is the text that is read, unless a device has taken it. -/
theorem text?_of_perform_writeText {machine after : Machine} {path : Path} {text : String}
    (h : machine.perform (writeText path text) = (.ok (), after))
    (hsink : machine.disk.find? machine.here path ≠ some .sink) : after.text? path = some text := by
  have hwritten := machine.disk.written_write machine.here path text.toUTF8
  rw [perform_writeText] at h
  cases hwrite : machine.disk.write machine.here path text.toUTF8 with
  | mk done later =>
    rw [hwrite] at h hwritten
    cases hwritten with
    | unopened => cases h
    | short _ _ _ => cases h
    | complete hopens =>
      cases h
      have hvalid : text.toUTF8.IsValidUTF8 := text.isValidUTF8
      have hread := hopens.read_fill (fun hentry => hsink (hopens.find?_of_sink hentry)) text.toUTF8
      rw [text?, hread, Option.bind_some, String.fromUTF8?, dif_pos hvalid]
      rfl

theorem perform_createDirectories (machine : Machine) (path : Path) :
    machine.perform (Host.createDirectories path) =
      (.ok (machine.disk.createDirectories machine.here path).1,
        { machine with disk := (machine.disk.createDirectories machine.here path).2 }) := rfl

end Machine

end TemplateCode

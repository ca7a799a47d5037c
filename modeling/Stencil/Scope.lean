import Stencil.Assoc
import Stencil.Host

/-!
# Scopes

A scope holds the bindings of loop variables and the text written so far. A shadow remembers what
a name was bound to, so that a loop can put it back.
-/

namespace Stencil

abbrev Bindings := Assoc Text Host

def Bindings.sorted (b : Bindings) : List (Text × Host) :=
  b.entries.mergeSort fun x y => !y.1.lex x.1 fun c d => c.toNat < d.toNat

structure Scope where
  locals : Bindings
  /-- What was written, the latest piece first. -/
  written : List Text

namespace Scope

def empty : Scope := ⟨.empty, []⟩

def write (s : Scope) (t : Text) : Scope := { s with written := t :: s.written }

def bind (s : Scope) (name : Text) (value : Host) : Scope :=
  { s with locals := s.locals.set name value }

def unbind (s : Scope) (name : Text) : Scope := { s with locals := s.locals.erase name }

def restore (s : Scope) (name : Text) (saved : Option Host) : Scope :=
  { s with locals := s.locals.restore name saved }

def output (s : Scope) : Text := s.written.reverse.flatten

@[simp] theorem output_write (s : Scope) (t : Text) : (s.write t).output = s.output ++ t := by
  simp [output, write]

@[simp] theorem output_bind (s : Scope) (name : Text) (value : Host) :
    (s.bind name value).output = s.output := rfl

@[simp] theorem output_unbind (s : Scope) (name : Text) : (s.unbind name).output = s.output := rfl

@[simp] theorem output_restore (s : Scope) (name : Text) (saved : Option Host) :
    (s.restore name saved).output = s.output := rfl

end Scope

/-! ## Sessions -/

structure Frame where
  source : Text
  template : Option Text
  data : Host
  written : List Text

def Frame.output (f : Frame) : Text := f.written.reverse.flatten

/-- A scope under manual control, with the shadows that are open and the frames that are active,
the innermost first. -/
structure Session where
  scope : Scope
  shadows : List (Text × Option Host)
  frames : List Frame

namespace Session

inductive Step
  | write (t : Text)
  | bind (name : Text) (value : Host)
  | unbind (name : Text)
  /-- Opens a shadow of a name. -/
  | enter (name : Text)
  /-- Closes the innermost shadow, after a failure as well. -/
  | exit
  | push (source : Text) (template : Option Text) (data : Host)
  | pop
  /-- Writes to the innermost frame. -/
  | writeActive (t : Text)

def empty : Session := ⟨.empty, [], []⟩

def step (s : Session) : Step → Session
  | .write t => { s with scope := s.scope.write t }
  | .bind name value => { s with scope := s.scope.bind name value }
  | .unbind name => { s with scope := s.scope.unbind name }
  | .enter name => { s with shadows := (name, s.scope.locals.get? name) :: s.shadows }
  | .exit =>
    match s.shadows with
    | [] => s
    | (name, saved) :: more => { s with scope := s.scope.restore name saved, shadows := more }
  | .push source template data => { s with frames := ⟨source, template, data, []⟩ :: s.frames }
  | .pop => { s with frames := s.frames.drop 1 }
  | .writeActive t =>
    match s.frames with
    | [] => s
    | f :: more => { s with frames := { f with written := t :: f.written } :: more }

def run (s : Session) : List Step → List Session
  | [] => []
  | x :: xs => s.step x :: (s.step x).run xs

end Session

end Stencil

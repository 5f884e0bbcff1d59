import BasicBlocks.FileSystem
import BasicBlocks.Reconciliation

/-!
# Tasks

A task works on a file system, reports events, and ends with a result or a fault. What it has
changed and reported by then stands either way.
-/

namespace BasicBlocks

structure Ending (ε α : Type) where
  files : FileSystem
  events : List Event
  result : Except ε α

def Task (ε α : Type) := FileSystem → Ending ε α

namespace Task

variable {ε δ α β : Type}

instance : Monad (Task ε) where
  pure a := fun fs => ⟨fs, [], .ok a⟩
  bind t f := fun fs =>
    let first := t fs
    match first.result with
    | .error e => ⟨first.files, first.events, .error e⟩
    | .ok a =>
      let second := f a first.files
      ⟨second.files, first.events ++ second.events, second.result⟩

def report (e : Event) : Task ε Unit := fun fs => ⟨fs, [e], .ok ()⟩

def fail (e : ε) : Task ε α := fun fs => ⟨fs, [], .error e⟩

/-- What can be told from the files. -/
def ask (f : FileSystem → α) : Task ε α := fun fs => ⟨fs, [], .ok (f fs)⟩

/-- What can be told from the files, unless they refuse it. -/
def tell (f : FileSystem → Except ε α) : Task ε α := fun fs => ⟨fs, [], f fs⟩

/-- Changes the files, or leaves them as they are. -/
def change (f : FileSystem → Except ε FileSystem) : Task ε Unit := fun fs =>
  match f fs with
  | .ok changed => ⟨changed, [], .ok ()⟩
  | .error e => ⟨fs, [], .error e⟩

/-- Changes the files, also when it fails. -/
def changePartly (f : FileSystem → FileSystem × Except ε Unit) : Task ε Unit := fun fs =>
  let (changed, result) := f fs
  ⟨changed, [], result⟩

def mapFault (f : ε → δ) (t : Task ε α) : Task δ α := fun fs =>
  let ending := t fs
  ⟨ending.files, ending.events, ending.result.mapError f⟩

/-- What a task ends with, as a result of its own. -/
def outcome (t : Task ε α) : Task δ (Except ε α) := fun fs =>
  let ending := t fs
  ⟨ending.files, ending.events, .ok ending.result⟩

def ofTraced (t : Traced ε α) : Task ε α := fun fs => ⟨fs, t.events, t.result⟩

/-- `last` is done however `t` ends. -/
def ensuring (t : Task ε α) (last : Task Empty Unit) : Task ε α := fun fs =>
  let first := t fs
  let second := last first.files
  ⟨second.files, first.events ++ second.events, first.result⟩

/-- Work within a stage, whose fault is told with it. -/
def atStage (t : Task Fault α) : Staged (Task Failure) α := fun stage fs =>
  let ending := t fs
  ⟨ending.files, ending.events, (ending.result.mapError (⟨stage, ·⟩)).map (·, stage)⟩

/-- Goes on to the next stage. -/
def advance (next : Stage) : Staged (Task Failure) Unit := fun stage fs =>
  ⟨fs, [.stageChanged stage next], .ok ((), next)⟩

end Task
end BasicBlocks

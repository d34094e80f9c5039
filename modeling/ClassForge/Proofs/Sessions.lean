import ClassForge.Proofs.Assembled

set_option autoImplicit false

namespace ClassForge

open Text (SourcePath)

inductive SessionCall where
  | compile (path : SourcePath) (source : String)
  | emit (sink : Nat)
  | compileInto (path : SourcePath) (source : String) (sink : Nat)

structure Workshop where
  session : Session
  sinks : Nat → List ClassUnit := fun _ => []

namespace SessionCall

def step : SessionCall → Workshop → Except CompileError Nat × Workshop
  | .compile path source, w =>
    let (answer, session) := w.session.compile path source
    (answer, { w with session })
  | .emit sink, w =>
    let (session, units) := w.session.emit (w.sinks sink)
    (.ok w.session.units.length, { session, sinks := Function.update w.sinks sink units })
  | .compileInto path source sink, w =>
    let (answer, session, units) := w.session.compileInto path source (w.sinks sink)
    (answer, { session, sinks := Function.update w.sinks sink units })

def run (calls : List SessionCall) (w : Workshop) : Workshop :=
  calls.foldl (fun w call => (call.step w).2) w

-- The files whose classes are handed to a sink, in order. A file that `waiting` names was compiled by the call
-- before; it is handed on by the next call or never.
def deliveries (sink : Nat) : (waiting : Option (SourcePath × String)) → List SessionCall →
    List (SourcePath × String)
  | _, [] => []
  | _, .compile path source :: rest => deliveries sink (some (path, source)) rest
  | waiting, .emit k :: rest => (if k = sink then waiting.toList else []) ++ deliveries sink none rest
  | _, .compileInto path source k :: rest =>
    (if k = sink then [(path, source)] else []) ++ deliveries sink none rest

end SessionCall

def classesOf (options : Options) (file : SourcePath × String) : List ClassUnit :=
  match compile options file.1 file.2 with
  | .ok units => units
  | .error _ => []

namespace Session

variable (s : Session) (path : SourcePath) (source : String)

theorem compile_fresh : s.compile path source = ({ options := s.options } : Session).compile path source := by
  unfold compile
  dsimp only

theorem compile_options : (s.compile path source).2.options = s.options := by
  unfold compile
  dsimp only
  split <;> rfl

theorem units_compile : (s.compile path source).2.units = classesOf s.options (path, source) := by
  unfold compile classesOf ClassForge.compile
  cases Program.ofSource path source with
  | error e => rfl
  | ok program =>
    cases made : program.units s.options with
    | error e => simp [bind, Except.bind, made]
    | ok units => simp [bind, Except.bind, made, pure, Except.pure]

-- The declarations and classes that a session holds once it has compiled a file: those of the file in the order
-- they were found, each class made of its declaration and checked.
structure HasCompiled (count : Nat) : Prop where
  found : ∃ raw, Program.parse path source = .ok raw ∧ s.program.map (·.toHeader) = raw.map (·.toHeader)
  made : List.Forall₂ (ClassUnit.Comes s.program s.options) s.program s.units
  count : s.units.length = count

variable {path source} {later : Session}

theorem hasCompiled_of_ok {count : Nat} (h : s.compile path source = (.ok count, later)) :
    later.HasCompiled path source count := by
  unfold compile at h
  dsimp only at h
  split at h
  next program units compiled =>
    cases h
    simp only [bind_eq_ok, pure_eq_ok] at compiled
    obtain ⟨program', read, units', made, same⟩ := compiled
    cases same
    simp only [Program.ofSource, bind_eq_ok] at read
    obtain ⟨raw, parsed, distinct, checked, reviewed⟩ := read
    refine ⟨⟨raw, parsed, ?_⟩, Program.units_come made, rfl⟩
    obtain rfl : distinct = raw := by
      unfold Program.checkDistinct at checked
      split at checked <;> cases checked
      rfl
    obtain ⟨rfl, -⟩ := Program.review_eq_ok reviewed
    simp [Function.comp_def, Review.complete_header]
  next => cases h

theorem empty_of_error {e : CompileError} (h : s.compile path source = (.error e, later)) :
    later.program = [] ∧ later.units = [] := by
  unfold compile at h
  dsimp only at h
  split at h <;> cases h
  exact ⟨rfl, rfl⟩

end Session

namespace SessionCall

variable {options : Options}

theorem run_sinks (calls : List SessionCall) {w : Workshop} (waiting : Option (SourcePath × String))
    (same : w.session.options = options) (pending : w.session.units = waiting.toList.flatMap (classesOf options))
    (sink : Nat) :
    (run calls w).sinks sink = w.sinks sink ++ (deliveries sink waiting calls).flatMap (classesOf options) ∧
      (run calls w).session.options = options := by
  induction calls generalizing w waiting with
  | nil => exact ⟨(List.append_nil _).symm, same⟩
  | cons call rest ih =>
    cases call with
    | compile path source =>
      have units := w.session.units_compile path source
      rw [same] at units
      exact ih (some (path, source)) ((w.session.compile_options path source).trans same)
        (units.trans (List.append_nil _).symm)
    | emit k =>
      obtain ⟨sinks, options⟩ := ih (w := (step (.emit k) w).2) none same rfl
      refine ⟨sinks.trans ?_, options⟩
      by_cases here : k = sink
      · subst here
        simp [step, Session.emit, deliveries, pending]
      · simp [step, Session.emit, deliveries, here, Ne.symm here]
    | compileInto path source k =>
      have units := w.session.units_compile path source
      have kept := w.session.compile_options path source
      rw [same] at units kept
      have left : (step (.compileInto path source k) w).2.session.options = options ∧
          (step (.compileInto path source k) w).2.session.units = [] ∧
          (step (.compileInto path source k) w).2.sinks =
            Function.update w.sinks k (w.sinks k ++ classesOf options (path, source)) := by
        rw [← units]
        unfold step Session.compileInto
        dsimp only
        split
        next compiled =>
          rw [compiled] at kept ⊢
          exact ⟨kept, rfl, rfl⟩
        next compiled =>
          rw [compiled] at kept ⊢
          have empty := (w.session.empty_of_error compiled).2
          exact ⟨kept, empty, by simp [empty]⟩
      obtain ⟨sinks, options⟩ := ih none left.1 left.2.1
      refine ⟨sinks.trans ?_, options⟩
      rw [left.2.2]
      by_cases here : k = sink
      · subst here
        simp [deliveries]
      · simp [deliveries, here, Ne.symm here]

structure Isolated (options : Options) (calls : List SessionCall) (w : Workshop) : Prop where
  sinks : ∀ sink, w.sinks sink = (deliveries sink none calls).flatMap (classesOf options)
  compile : ∀ path source, step (.compile path source) w =
    ((({ options } : Session).compile path source).1,
      { w with session := (({ options } : Session).compile path source).2 })
  compiled : ∀ path source, match ({ options } : Session).compile path source with
    | (.ok count, later) => later.HasCompiled path source count
    | (.error _, later) => later.program = [] ∧ later.units = []
  emit : ∀ sink, step (.emit sink) w =
    (.ok w.session.units.length,
      { session := { w.session with units := [] }
        sinks := Function.update w.sinks sink (w.sinks sink ++ w.session.units) })
  compileInto : ∀ path source sink, step (.compileInto path source sink) w =
    match ({ options } : Session).compile path source with
    | (.ok count, later) =>
      (.ok count, { session := { later with units := [] }
                    sinks := Function.update w.sinks sink (w.sinks sink ++ later.units) })
    | (.error e, later) => (.error e, { w with session := later })

-- After any calls on a new session, every sink holds the classes of the files that were handed to it, file
-- after file. Compiling a file then gives what it gives in a new session, and leaves nothing when it fails;
-- handing on moves what is pending to the end of the sink; doing both at once leaves the sinks as they are when
-- the file does not compile.
theorem run_isolated (options : Options) (calls : List SessionCall) :
    Isolated options calls (run calls { session := { options } }) := by
  have sinks := fun sink => run_sinks calls (w := { session := { options } }) none rfl rfl sink
  have fresh (path : SourcePath) (source : String) :
      (run calls { session := { options } }).session.compile path source =
        ({ options } : Session).compile path source := by
    rw [Session.compile_fresh, (sinks 0).2]
  constructor
  case sinks => exact fun sink => (sinks sink).1
  case compile =>
    intro path source
    rw [step, fresh]
  case compiled =>
    intro path source
    split
    next compiled => exact Session.hasCompiled_of_ok _ compiled
    next failed => exact Session.empty_of_error _ failed
  case emit => exact fun _ => rfl
  case compileInto =>
    intro path source sink
    rw [step, Session.compileInto, fresh]
    rcases ({ options } : Session).compile path source with ⟨_ | _, later⟩
    · simp
    · rfl

end SessionCall

end ClassForge

import Mathlib
import ElementWrappers.Pass.Session
import ElementWrappers.Proofs.FailedPass

/-!
# Rehearsals

A rehearsal reads through the writes it keeps. It says step by step what the
operations say on a store that takes the writes, and its own store stays as it
is: `rehearsed_turns`. The writes of a batch may be made in any order, the same
on both sides.
-/

namespace ElementWrappers

/-! ## The writes kept -/

/-- One store is another with the writes kept laid over its files. -/
structure Rehearses (s : Store) (kept : Entries String) (t : Store) : Prop where
  distinct : kept.keys.Nodup
  writable : t.refusing = []
  files : t.files = s.files.overlay kept

namespace Rehearses

variable {s t : Store} {kept : Entries String} {α : Type}

theorem start (s : Store) : Rehearses s [] { files := s.files } := ⟨List.nodup_nil, rfl, rfl⟩

/-- What is read through the writes kept. -/
theorem read (h : Rehearses s kept t) (path : String) :
    t.read path =
      match kept.get? path with
      | some text => .ok text
      | none => s.read path := by
  rw [Store.read, h.files, Entries.get?_overlay h.distinct]
  cases kept.get? path with
  | some text => rfl
  | none => rfl

theorem write (h : Rehearses s kept t) (path content : String) :
    (t.write path content).1 = true ∧
      Rehearses s (kept.insert path content) (t.write path content).2 := by
  have hr : ¬ t.Refuses path := by
    rw [Store.Refuses, h.writable]
    exact List.not_mem_nil
  rw [Store.write_of_not_refuses hr]
  refine ⟨rfl, Entries.nodup_keys_insert h.distinct, h.writable, ?_⟩
  rw [Entries.overlay_insert h.distinct, ← h.files]

/-- A script that keeps its writes ends as it does where they are taken. -/
theorem run (h : Rehearses s kept t) (x : Script α) :
    ((x.capture kept).run s).1.1 = (x.run t).1 ∧
      Rehearses s ((x.capture kept).run s).1.2 (x.run t).2 := by
  induction x generalizing kept t with
  | done a => exact ⟨rfl, h⟩
  | read path next ih =>
    show _ = ((next (t.read path)).run t).1 ∧ Rehearses s _ ((next (t.read path)).run t).2
    rw [h.read path, Script.capture]
    cases kept.get? path with
    | some text => exact ih (.ok text) h
    | none => exact ih (s.read path) h
  | write path content next ih =>
    obtain ⟨hok, hw⟩ := h.write path content
    show _ = ((next (t.write path content).1).run _).1 ∧
      Rehearses s _ ((next (t.write path content).1).run _).2
    rw [hok]
    exact ih true hw

end Rehearses

/-! ## Orders of the writes -/

/-- A script with writes that follow one another made in another order, such as
those of a batch. -/
inductive Script.Reorders {α : Type} : Script α → Script α → Prop
  | done (a : α) : Reorders (.done a) (.done a)
  | read (path : String) {next next' : Except ReadFault String → Script α}
      (rest : ∀ r, Reorders (next r) (next' r)) : Reorders (.read path next) (.read path next')
  | write (path content : String) {next next' : Bool → Script α}
      (rest : ∀ ok, Reorders (next ok) (next' ok)) :
      Reorders (.write path content next) (.write path content next')
  | batch {files order : List OutputFile} (all : order.Perm files)
      {next next' : Except PassError Unit → Script α} (rest : ∀ r, Reorders (next r) (next' r)) :
      Reorders ((writeAll files).andThen next) ((writeAll order).andThen next')

namespace Script

variable {α β : Type}

theorem Reorders.refl (x : Script α) : x.Reorders x := by
  induction x with
  | done a => exact .done a
  | read path next ih => exact .read path ih
  | write path content next ih => exact .write path content ih

theorem andThen_assoc {γ : Type} (x : Script α) (f : α → Script β) (g : β → Script γ) :
    (x.andThen f).andThen g = x.andThen fun a => (f a).andThen g := by
  induction x with
  | done a => rfl
  | read path next ih => exact congrArg (Script.read path) (funext ih)
  | write path content next ih => exact congrArg (Script.write path content) (funext ih)

theorem Reorders.andThen {x y : Script α} (h : x.Reorders y) {f g : α → Script β}
    (hf : ∀ a, (f a).Reorders (g a)) : (x.andThen f).Reorders (y.andThen g) := by
  induction h with
  | done a => exact hf a
  | read path _ ih => exact .read path ih
  | write path content _ ih => exact .write path content ih
  | batch all _ ih =>
    rw [andThen_assoc, andThen_assoc]
    exact .batch all ih

/-- Where nothing refuses writes, a list of files is written to its end. -/
theorem run_writeAll_of_writable {s : Store} (hs : s.refusing = []) (files : List OutputFile) :
    (writeAll files).run s = (.ok (), s.attempt files) := by
  induction files generalizing s with
  | nil => rfl
  | cons f rest ih =>
    have hr : ¬ s.Refuses f.path := by
      rw [Store.Refuses, hs]
      exact List.not_mem_nil
    have hok : (s.write f.path f.content).1 = true := by rw [Store.write_of_not_refuses hr]
    have hrest := ih ((Store.refusing_write s f.path f.content).trans hs)
    show (ite ((s.write f.path f.content).1 = true) (writeAll rest) _).run
      (s.write f.path f.content).2 = _
    rw [if_pos hok]
    exact hrest

end Script

/-- An operation with an order of the writes of each batch. -/
structure Turn where
  operation : Operation
  script : Script Outcome
  performs : operation.script.Reorders script

/-- The files of each batch one after the other. -/
def Turn.inOrder (o : Operation) : Turn := ⟨o, o.script, .refl _⟩

/-- What a commit does after its first batch. -/
def Plan.register (p : Plan) : Except PassError Unit → Script (Except PassError Plan)
  | .error e => .done (.error e)
  | .ok () =>
    (Script.writeAll p.manifest.toList).andThen fun
      | .error e => .done (.error e)
      | .ok () => .done (.ok p)

namespace Target

variable {t : Target} {components : List Component} {config : BuildConfig} {s s' : Store}
  {r : Except PassError Plan} {p : Plan} {order : Plan → List OutputFile}

/-- A pass that writes the files of each plan in some order. -/
def passIn (t : Target) (components : List Component) (config : BuildConfig)
    (order : Plan → List OutputFile) : Script (Except PassError Plan) :=
  (Script.view (t.dependencies config.rootDir)).andThen fun view =>
    match t.plan view components config with
    | .error e => .done (.error e)
    | .ok p => (Script.writeAll (order p)).andThen p.register

theorem pass_reorders_passIn (h : ∀ p, (order p).Perm p.files) :
    (t.pass components config).Reorders (t.passIn components config order) := by
  apply Script.Reorders.andThen (.refl _)
  intro view
  cases t.plan view components config with
  | error e => exact .done _
  | ok p => exact .batch (h p) fun r => .refl _

theorem run_passIn (hp : t.plan s.read components config = .ok p) (hs : s.refusing = []) :
    (t.passIn components config order).run s =
      (.ok p, (s.attempt (order p)).attempt p.manifest.toList) := by
  have hs₁ := (s.refusing_attempt (order p)).trans hs
  have hrun := run_planned t components config
    (fun q => (Script.writeAll (order q)).andThen q.register) s
  rw [hp] at hrun
  refine hrun.trans ?_
  show ((Script.writeAll (order p)).andThen p.register).run s = _
  rw [Script.run_andThen, Script.run_writeAll_of_writable hs]
  show ((Script.writeAll p.manifest.toList).andThen _).run (s.attempt (order p)) = _
  rw [Script.run_andThen, Script.run_writeAll_of_writable hs₁]
  rfl

/-- Every pass over a store that takes all writes is made by its script, with
the writes in some order. -/
theorem Passes.exists_reorders (made : t.Passes components config s r s') (hs : s.refusing = []) :
    ∃ x, (t.pass components config).Reorders x ∧ x.run s = (r, s') := by
  cases made with
  | refused plan =>
    refine ⟨_, .refl _, ?_⟩
    rw [run_pass, plan]
  | broken plan files => exact absurd files (Batch.not_error_of_writable hs)
  | unregistered plan files manifest =>
    obtain ⟨order, -, rfl⟩ := files.exists_order
    have hs₁ := (s.refusing_attempt order).trans hs
    exact absurd manifest (Batch.not_error_of_writable hs₁)
  | @completed p _ _ plan files manifest =>
    obtain ⟨order, all, rfl⟩ := files.exists_order_of_ok
    obtain rfl := manifest.eq_of_toList
    -- The order is one for this plan; the script has to have one for every plan.
    refine ⟨t.passIn components config fun q => if q = p then order else q.files,
      pass_reorders_passIn fun q => ?_, ?_⟩
    · split
      · rename_i hq
        rwa [hq]
      · exact .refl _
    · rw [run_passIn plan hs, if_pos rfl]

/-- Every pass over a store that takes all writes is a turn. -/
theorem Passes.exists_turn (made : t.Passes components config s r s') (hs : s.refusing = []) :
    ∃ turn : Turn, turn.operation = .pass t components config ∧
      turn.script.run s = (.plan r, s') := by
  obtain ⟨x, hx, hrun⟩ := made.exists_reorders hs
  refine ⟨⟨.pass t components config, x.andThen fun r => .done (.plan r),
    hx.andThen fun r => .done _⟩, rfl, ?_⟩
  show (x.andThen fun r => Script.done (Outcome.plan r)).run s = _
  rw [Script.run_andThen, hrun]
  rfl

end Target

namespace Session

variable {s t : Store} {kept : Entries String}

/-- Whether a file is there, in the store or among those kept. -/
def has (s : Session) (path : String) : Bool := (s.kept.getD []).has path || s.store.has path

theorem operate_has (s : Session) (path : String) :
    s.operate (.has path) = (.present (s.has (Path.normalize path)), s) := by
  obtain ⟨store, kept⟩ := s
  have hstore : (store.read (Path.normalize path)).isOk = store.has (Path.normalize path) := by
    unfold Store.read Store.has Entries.has
    cases store.files.get? (Path.normalize path) with
    | none => rfl
    | some text => rfl
  cases kept with
  | none =>
    show (Outcome.present (store.read (Path.normalize path)).isOk, _) = _
    rw [hstore]
    rfl
  | some kept =>
    unfold operate perform Operation.script
    simp only [Script.capture, has, Entries.has, Option.getD_some]
    cases kept.get? (Path.normalize path) with
    | some text => rfl
    | none =>
      show (Outcome.present (store.read (Path.normalize path)).isOk, _) = _
      rw [hstore]
      rfl

/-- Takes several turns. -/
def turns (s : Session) : List Turn → List Outcome × Session
  | [] => ([], s)
  | t :: rest =>
    let (outcome, s) := s.perform t.script
    let (outcomes, s) := turns s rest
    (outcome :: outcomes, s)

/-- Several operations are turns with the files of each batch one after the other. -/
theorem operateAll_eq_turns (s : Session) (operations : List Operation) :
    s.operateAll operations = s.turns (operations.map Turn.inOrder) := by
  induction operations generalizing s with
  | nil => rfl
  | cons o rest ih =>
    show (_ :: ((s.operate o).2.operateAll rest).1, ((s.operate o).2.operateAll rest).2) = _
    rw [ih]
    rfl

/-- One script on both sides. -/
theorem perform_of_rehearses {α : Type} (h : Rehearses s kept t) (x : Script α) :
    ∃ a kept' t', (⟨s, some kept⟩ : Session).perform x = (a, ⟨s, some kept'⟩) ∧
      (⟨t, none⟩ : Session).perform x = (a, ⟨t', none⟩) ∧ Rehearses s kept' t' := by
  obtain ⟨hresult, hend⟩ := h.run x
  refine ⟨_, _, _, ?_, rfl, hend⟩
  show (((x.capture kept).run s).1.1, (⟨((x.capture kept).run s).2, _⟩ : Session)) = _
  rw [hresult, Script.run_capture_snd]

/-- Several turns on both sides, with writes kept from earlier ones. -/
theorem turns_of_rehearses (h : Rehearses s kept t) (ts : List Turn) :
    ∃ outcomes kept' t', (⟨s, some kept⟩ : Session).turns ts = (outcomes, ⟨s, some kept'⟩) ∧
      (⟨t, none⟩ : Session).turns ts = (outcomes, ⟨t', none⟩) ∧ Rehearses s kept' t' := by
  induction ts generalizing kept t with
  | nil => exact ⟨[], kept, t, rfl, rfl, h⟩
  | cons turn rest ih =>
    obtain ⟨outcome, kept₁, t₁, hrehearsed, hreal, h₁⟩ := perform_of_rehearses h turn.script
    obtain ⟨outcomes, kept₂, t₂, hrehearsed', hreal', h₂⟩ := ih h₁
    refine ⟨outcome :: outcomes, kept₂, t₂, ?_, ?_, h₂⟩
    · simp only [turns, hrehearsed, hrehearsed']
    · simp only [turns, hreal, hreal']

/-- A rehearsal says what the same turns say on a store that has the files and
takes all writes. The files kept, laid over those of its own store, are the
files of the other in the end; its own store is as it was, log included. -/
theorem rehearsed_turns (s : Store) (ts : List Turn) :
    let rehearsed := (⟨s, some []⟩ : Session).turns ts
    let real := (⟨{ files := s.files }, none⟩ : Session).turns ts
    rehearsed.1 = real.1 ∧ s.files.overlay rehearsed.2.written = real.2.written ∧
      rehearsed.2.store = s := by
  obtain ⟨outcomes, kept, t, hrehearsed, hreal, h⟩ := turns_of_rehearses (.start s) ts
  rw [hrehearsed, hreal]
  exact ⟨rfl, h.files.symm, rfl⟩

end Session

end ElementWrappers

import Mathlib
import ElementWrappers.Pass.Run
import ElementWrappers.Pass.Store
import ElementWrappers.Proofs.EntryLaws

/-!
# Concurrent batches of writes

The writes of a batch are made in any order. Once one of them has failed, any
of the others may be left out. `Batch` is the relation between the store
before, the result, and the store after; writing the files one after the other
is one way to run a batch.
-/

namespace ElementWrappers

namespace Store

variable {s : Store} {path : String} {order files : List OutputFile} {f : OutputFile}

/-- Whether writes to a path fail. -/
def Refuses (s : Store) (path : String) : Prop := path ∈ s.refusing

/-- The store after the writes of some files have been attempted in order. -/
def attempt (s : Store) (order : List OutputFile) : Store :=
  order.foldl (fun s f => (s.write f.path f.content).2) s

@[simp] theorem attempt_nil (s : Store) : s.attempt [] = s := rfl

@[simp] theorem attempt_cons (s : Store) (f : OutputFile) (rest : List OutputFile) :
    s.attempt (f :: rest) = (s.write f.path f.content).2.attempt rest := rfl

theorem write_of_refuses (h : s.Refuses path) (content : String) :
    s.write path content = (false, { s with log := s.log ++ [path] }) :=
  if_pos (List.contains_iff_mem.mpr h)

theorem write_of_not_refuses (h : ¬ s.Refuses path) (content : String) :
    s.write path content =
      (true, { s with files := s.files.insert path content, log := s.log ++ [path] }) :=
  if_neg fun hc => h (List.contains_iff_mem.mp hc)

@[simp] theorem refusing_write (s : Store) (path content : String) :
    (s.write path content).2.refusing = s.refusing := by
  by_cases h : s.Refuses path
  · rw [write_of_refuses h]
  · rw [write_of_not_refuses h]

/-- A write changes nothing about what can be written. -/
@[simp] theorem refuses_write {other : String} (content : String) :
    (s.write other content).2.Refuses path ↔ s.Refuses path := by
  rw [Refuses, refusing_write]
  rfl

/-! ## What writes keep -/

@[simp] theorem log_write (s : Store) (path content : String) :
    (s.write path content).2.log = s.log ++ [path] := by
  by_cases h : s.Refuses path
  · rw [write_of_refuses h]
  · rw [write_of_not_refuses h]

theorem get?_write_of_ne {other : String} (h : path ≠ other) (content : String) :
    (s.write other content).2.files.get? path = s.files.get? path := by
  by_cases hr : s.Refuses other
  · rw [write_of_refuses hr]
  · rw [write_of_not_refuses hr]
    exact Entries.get?_insert_of_ne _ _ h

/-- What is at a path that no write reaches stays there. -/
theorem get?_attempt_of_untouched
    (h : ∀ f ∈ order, f.path = path → s.Refuses path) :
    (s.attempt order).files.get? path = s.files.get? path := by
  induction order generalizing s with
  | nil => rfl
  | cons f rest ih =>
    have hrest : ∀ g ∈ rest, g.path = path → (s.write f.path f.content).2.Refuses path := by
      intro g hg hp
      rw [refuses_write]
      exact h g (List.mem_cons_of_mem _ hg) hp
    rw [attempt_cons, ih hrest]
    by_cases hf : path = f.path
    · have hr : s.Refuses f.path := hf ▸ h f List.mem_cons_self hf.symm
      rw [write_of_refuses hr]
    · exact get?_write_of_ne hf f.content

@[simp] theorem refusing_attempt (s : Store) (order : List OutputFile) :
    (s.attempt order).refusing = s.refusing := by
  induction order generalizing s with
  | nil => rfl
  | cons f rest ih => rw [attempt_cons, ih, refusing_write]

theorem attempt_append (s : Store) (order rest : List OutputFile) :
    s.attempt (order ++ rest) = (s.attempt order).attempt rest := List.foldl_append

/-- Attempts change nothing about what can be written. -/
theorem refuses_attempt (order : List OutputFile) :
    (s.attempt order).Refuses path ↔ s.Refuses path := by
  rw [Refuses, refusing_attempt]
  rfl

/-- Every attempt is logged, whether it succeeds or not. -/
theorem log_attempt (s : Store) (order : List OutputFile) :
    (s.attempt order).log = s.log ++ order.map OutputFile.path := by
  induction order generalizing s with
  | nil => simp
  | cons f rest ih => rw [attempt_cons, ih, log_write, List.append_assoc]; rfl

theorem has_write (h : s.has path = true) (other content : String) :
    (s.write other content).2.has path = true := by
  by_cases hr : s.Refuses other
  · rw [write_of_refuses hr]
    exact h
  · rw [write_of_not_refuses hr]
    exact Entries.has_insert.mpr (.inr h)

/-- No write removes a file. -/
theorem has_attempt (h : s.has path = true) (order : List OutputFile) :
    (s.attempt order).has path = true := by
  induction order generalizing s with
  | nil => exact h
  | cons f rest ih => exact ih (has_write h f.path f.content)

theorem has_write_self (h : ¬ s.Refuses path) (content : String) :
    (s.write path content).2.has path = true := by
  rw [write_of_not_refuses h]
  exact Entries.has_insert.mpr (.inl rfl)

/-- A file is there after its write has succeeded. -/
theorem has_attempt_of_mem (hf : f ∈ order) (h : ¬ s.Refuses f.path) :
    (s.attempt order).has f.path = true := by
  induction order generalizing s with
  | nil => cases hf
  | cons g rest ih =>
    rcases List.mem_cons.mp hf with rfl | hf
    · exact has_attempt (has_write_self h f.content) rest
    · refine ih hf ?_
      rwa [refuses_write]

theorem get?_write_self (h : ¬ s.Refuses path) (content : String) :
    (s.write path content).2.files.get? path = some content := by
  rw [write_of_not_refuses h]
  exact Entries.get?_insert_self _ _ _

/-- Writes to different paths do not undo each other. -/
theorem get?_attempt_of_mem (hn : (order.map OutputFile.path).Nodup)
    (hw : ∀ f ∈ order, ¬ s.Refuses f.path) (hf : f ∈ order) :
    (s.attempt order).files.get? f.path = some f.content := by
  induction order generalizing s with
  | nil => cases hf
  | cons g rest ih =>
    obtain ⟨hg, hrest⟩ := List.nodup_cons.mp hn
    rcases List.mem_cons.mp hf with rfl | hf
    · rw [attempt_cons, get?_attempt_of_untouched,
        get?_write_self (hw f List.mem_cons_self) f.content]
      exact fun f' hf' he => absurd (List.mem_map.mpr ⟨f', hf', he⟩) hg
    · refine ih hrest (fun f' hf' => ?_) hf
      rw [refuses_write]
      exact hw f' (List.mem_cons_of_mem _ hf')

/-- Writing to files what they hold changes none of them. -/
theorem files_attempt_of_get? (h : ∀ f ∈ order, s.files.get? f.path = some f.content) :
    (s.attempt order).files = s.files := by
  induction order generalizing s with
  | nil => rfl
  | cons f rest ih =>
    have hf : (s.write f.path f.content).2.files = s.files := by
      by_cases hr : s.Refuses f.path
      · rw [write_of_refuses hr]
      · rw [write_of_not_refuses hr]
        exact Entries.insert_of_get? (h f List.mem_cons_self)
    rw [attempt_cons, ih, hf]
    intro g hg
    rw [hf]
    exact h g (List.mem_cons_of_mem _ hg)

end Store

/-! ## Batches -/

/-- A batch of writes ends with a result and a store. -/
inductive Batch (files : List OutputFile) (s : Store) : Except PassError Unit → Store → Prop
  /-- All writes succeed, in some order. -/
  | complete (order : List OutputFile) (all : order.Perm files)
      (writable : ∀ f ∈ order, ¬ s.Refuses f.path) : Batch files s (.ok ()) (s.attempt order)
  /-- A write fails, and the batch may end before all others have been made. -/
  | abort (order : List OutputFile) {f : OutputFile} (part : order.Subperm files)
      (failed : f ∈ order) (refused : s.Refuses f.path) :
      Batch files s (.error (.unwritable f.path)) (s.attempt order)

namespace Batch

variable {files : List OutputFile} {s s' : Store} {r : Except PassError Unit} {path : String}

/-- A batch attempts some of its files, each once. -/
theorem exists_order (h : Batch files s r s') :
    ∃ order : List OutputFile, order.Subperm files ∧ s' = s.attempt order := by
  cases h with
  | complete _ all _ => exact ⟨_, all.subperm, rfl⟩
  | abort _ part _ _ => exact ⟨_, part, rfl⟩

/-- A batch logs paths of its files, each once. -/
theorem exists_attempts (h : Batch files s r s') :
    ∃ attempts : List String, attempts.Subperm (files.map OutputFile.path) ∧
      s'.log = s.log ++ attempts := by
  obtain ⟨order, ⟨part, hperm, hsub⟩, rfl⟩ := h.exists_order
  exact ⟨_, ⟨_, hperm.map _, hsub.map _⟩, Store.log_attempt s order⟩

theorem refuses_iff (h : Batch files s r s') : s'.Refuses path ↔ s.Refuses path := by
  obtain ⟨order, -, rfl⟩ := h.exists_order
  exact Store.refuses_attempt order

theorem writable_of_ok (h : Batch files s (.ok ()) s') : ∀ f ∈ files, ¬ s.Refuses f.path := by
  cases h with
  | complete _ all writable => exact fun f hf => writable f (all.symm.subset hf)

/-- A batch that succeeds has attempted all of its files. -/
theorem exists_order_of_ok (h : Batch files s (.ok ()) s') :
    ∃ order : List OutputFile, order.Perm files ∧ s' = s.attempt order := by
  cases h with
  | complete _ all _ => exact ⟨_, all, rfl⟩

/-- A batch fails for one of its files, which cannot be written. -/
theorem exists_refused_of_error {e : PassError} (h : Batch files s (.error e) s') :
    ∃ f ∈ files, s.Refuses f.path ∧ e = .unwritable f.path := by
  cases h with
  | abort _ part failed refused => exact ⟨_, part.subset failed, refused, rfl⟩

/-- No batch fails where nothing refuses writes. -/
theorem not_error_of_writable {e : PassError} (hs : s.refusing = []) :
    ¬ Batch files s (.error e) s' := by
  intro h
  obtain ⟨f, -, hr, -⟩ := h.exists_refused_of_error
  rw [Store.Refuses, hs] at hr
  exact List.not_mem_nil hr

theorem files_eq (h : Batch files s r s')
    (hf : ∀ f ∈ files, s.files.get? f.path = some f.content) : s'.files = s.files := by
  obtain ⟨order, part, rfl⟩ := h.exists_order
  exact Store.files_attempt_of_get? fun f hm => hf f (part.subset hm)

/-- A batch removes no file. -/
theorem has (h : Batch files s r s') (hp : s.has path = true) : s'.has path = true := by
  obtain ⟨order, -, rfl⟩ := h.exists_order
  exact Store.has_attempt hp order

/-- A batch leaves all other paths alone. -/
theorem get?_of_untouched (h : Batch files s r s')
    (hp : ∀ f ∈ files, f.path = path → s.Refuses path) :
    s'.files.get? path = s.files.get? path := by
  obtain ⟨order, ho, rfl⟩ := h.exists_order
  exact Store.get?_attempt_of_untouched fun f hf => hp f (ho.subset hf)

/-- After a batch that succeeds, every file is there. -/
theorem has_of_ok (h : Batch files s (.ok ()) s') {f : OutputFile} (hf : f ∈ files) :
    s'.has f.path = true := by
  cases h with
  | complete _ all writable =>
    have hm := all.symm.subset hf
    exact Store.has_attempt_of_mem hm (writable f hm)

/-- A file that is written alone leaves its path alone when it fails. -/
theorem get?_of_single_error {f : OutputFile} {e : PassError} (h : Batch [f] s (.error e) s') :
    s'.files.get? path = s.files.get? path := by
  refine h.get?_of_untouched ?_
  cases h with
  | abort _ part failed refused =>
    intro g hg hp
    have hf := part.subset failed
    rw [List.mem_singleton.mp hg] at hp
    rwa [← hp, ← List.mem_singleton.mp hf]

/-- After a batch that succeeds, every file whose path no other has is there
with its own text. -/
theorem get?_of_ok (h : Batch files s (.ok ()) s') (hn : (files.map OutputFile.path).Nodup)
    {f : OutputFile} (hf : f ∈ files) : s'.files.get? f.path = some f.content := by
  cases h with
  | complete order all writable =>
    exact Store.get?_attempt_of_mem ((all.map _).nodup_iff.mpr hn) writable (all.symm.subset hf)

/-- A file that is written alone is at its path when it succeeds. -/
theorem get?_of_single_ok {f : OutputFile} (h : Batch [f] s (.ok ()) s') :
    s'.files.get? f.path = some f.content :=
  h.get?_of_ok (List.nodup_singleton _) (List.mem_singleton_self f)

/-- A file that may be written is alone in its batch. -/
theorem eq_of_toList {m : Option OutputFile} (h : Batch m.toList s (.ok ()) s') :
    s' = s.attempt m.toList := by
  obtain ⟨order, same, rfl⟩ := h.exists_order_of_ok
  cases m with
  | none => rw [show order = [] from List.perm_nil.mp same]; rfl
  | some f => rw [show order = [f] from List.perm_singleton.mp same]; rfl

/-- A batch succeeds where none of its files refuses writes. -/
theorem eq_ok_of_writable (h : Batch files s r s') (hw : ∀ f ∈ files, ¬ s.Refuses f.path) :
    r = .ok () := by
  cases h with
  | complete _ _ _ => rfl
  | abort _ part failed refused => exact absurd refused (hw _ (part.subset failed))

/-- A batch may begin with a write that succeeds. -/
theorem cons {f : OutputFile} (hf : ¬ s.Refuses f.path)
    (h : Batch files (s.write f.path f.content).2 r s') : Batch (f :: files) s r s' := by
  cases h with
  | complete order all writable =>
    refine complete (f :: order) (all.cons f) ?_
    intro g hg
    rcases List.mem_cons.mp hg with rfl | hg
    · exact hf
    · exact fun hr => writable g hg ((Store.refuses_write f.content).mpr hr)
  | @abort order g part failed refused =>
    exact abort (f :: order) ((List.subperm_cons f).mpr part)
      (List.mem_cons_of_mem f failed) ((Store.refuses_write f.content).mp refused)

/-- Writing the files one after the other is a batch. -/
theorem run_writeAll (files : List OutputFile) (s : Store) :
    Batch files s ((Script.writeAll files).run s).1 ((Script.writeAll files).run s).2 := by
  induction files generalizing s with
  | nil => exact complete [] (List.Perm.refl _) (fun _ hf => nomatch hf)
  | cons f rest ih =>
    show Batch (f :: rest) s
      ((if (s.write f.path f.content).1 then Script.writeAll rest
        else .done (.error (.unwritable f.path))).run (s.write f.path f.content).2).1
      ((if (s.write f.path f.content).1 then Script.writeAll rest
        else .done (.error (.unwritable f.path))).run (s.write f.path f.content).2).2
    by_cases hr : s.Refuses f.path
    · have hw : (s.write f.path f.content).1 = false := by rw [Store.write_of_refuses hr]
      simp only [hw, Bool.false_eq_true, ↓reduceIte]
      exact abort [f] (List.singleton_subperm_iff.mpr List.mem_cons_self)
        (List.mem_singleton_self f) hr
    · have hw : (s.write f.path f.content).1 = true := by rw [Store.write_of_not_refuses hr]
      simp only [hw, ↓reduceIte]
      exact cons hr (ih _)

end Batch

end ElementWrappers

import Mathlib
import ElementWrappers.Entries

/-!
# Laws of keyed entries

How insertions change what is found at a key, one insertion at a time and for
several insertions in a row.
-/

namespace ElementWrappers

namespace Entries

variable {α β : Type _} {entries entries' : Entries α} {key k : String} {value v : α}

theorem get?_insert_self (entries : Entries α) (key : String) (value : α) :
    (entries.insert key value).get? key = some value := by
  induction entries with
  | nil => simp [insert, get?]
  | cons entry rest ih =>
    obtain ⟨k', v'⟩ := entry
    by_cases h : k' = key
    · simp [insert, h, get?]
    · simpa [insert, h, get?] using ih

theorem get?_insert_of_ne (entries : Entries α) (value : α) (h : k ≠ key) :
    (entries.insert key value).get? k = entries.get? k := by
  induction entries with
  | nil => simp [insert, get?, h.symm]
  | cons entry rest ih =>
    obtain ⟨k', v'⟩ := entry
    by_cases hk : k' = key
    · subst hk
      simp [insert, get?, h.symm]
    · simp only [insert, hk, ↓reduceIte, get?, ih]

theorem mem_of_get? (h : entries.get? k = some v) : (k, v) ∈ entries := by
  induction entries with
  | nil => cases h
  | cons entry rest ih =>
    obtain ⟨k', v'⟩ := entry
    rw [get?] at h
    split at h
    · rename_i hk
      cases h
      rw [hk]
      exact List.mem_cons_self
    · exact List.mem_cons_of_mem _ (ih h)

theorem get?_of_mem (h : entries.keys.Nodup) (hm : (k, v) ∈ entries) : entries.get? k = some v := by
  induction entries with
  | nil => cases hm
  | cons entry rest ih =>
    obtain ⟨k', v'⟩ := entry
    simp only [keys, List.map_cons, List.nodup_cons] at h
    rcases List.mem_cons.mp hm with he | hm
    · cases he
      exact if_pos rfl
    · have hk : k' ≠ k := by
        rintro rfl
        exact h.1 (List.mem_map_of_mem hm)
      rw [get?, if_neg hk]
      exact ih h.2 hm

/-- The order of distinct keys does not matter. -/
theorem get?_eq_of_perm (h : entries.keys.Nodup) (hp : entries.Perm entries') :
    entries.get? k = entries'.get? k := by
  have h' : entries'.keys.Nodup := (hp.map Prod.fst).nodup_iff.mp h
  refine Option.ext fun v => ⟨fun hv => ?_, fun hv => ?_⟩
  · exact get?_of_mem h' (hp.mem_iff.mp (mem_of_get? hv))
  · exact get?_of_mem h (hp.mem_iff.mpr (mem_of_get? hv))

theorem has_iff_mem_keys : entries.has k = true ↔ k ∈ entries.keys := by
  induction entries with
  | nil => simp [has, get?, keys]
  | cons entry rest ih =>
    obtain ⟨k', v'⟩ := entry
    simp only [has, keys] at ih
    by_cases hk : k' = k
    · simp [has, get?, keys, hk]
    · have hk' : k ≠ k' := fun e => hk e.symm
      simpa [has, get?, keys, hk, hk'] using ih

theorem get?_eq_none_of_not_mem (h : k ∉ entries.keys) : entries.get? k = none :=
  Option.not_isSome_iff_eq_none.mp fun hs => h (has_iff_mem_keys.mp hs)

theorem get?_append_of_not_mem {more : Entries α} (h : k ∉ entries.keys) :
    get? (entries ++ more) k = more.get? k := by
  induction entries with
  | nil => rfl
  | cons entry rest ih =>
    simp only [keys, List.map_cons, List.mem_cons, not_or] at h
    rw [List.cons_append, get?, if_neg (Ne.symm h.1), ih h.2]

theorem has_insert : (entries.insert key value).has k = true ↔ k = key ∨ entries.has k = true := by
  rw [has_iff_mem_keys, has_iff_mem_keys, mem_keys_insert]

theorem mem_insert {entry : String × α} (h : entry ∈ entries.insert key value) :
    entry = (key, value) ∨ entry ∈ entries := by
  induction entries with
  | nil => exact .inl (List.mem_singleton.mp h)
  | cons first rest ih =>
    obtain ⟨k', v'⟩ := first
    rw [insert] at h
    split at h
    · rcases List.mem_cons.mp h with rfl | h
      · exact .inl rfl
      · exact .inr (List.mem_cons_of_mem _ h)
    · rcases List.mem_cons.mp h with rfl | h
      · exact .inr List.mem_cons_self
      · exact (ih h).imp_right (List.mem_cons_of_mem _)

/-- A choice among the keys keeps what is found at the keys it takes. -/
theorem get?_filter_keys {p : String → Bool} (h : p k = true) :
    get? (entries.filter fun entry => p entry.1) k = entries.get? k := by
  induction entries with
  | nil => rfl
  | cons entry rest ih =>
    obtain ⟨k', v'⟩ := entry
    rw [List.filter_cons]
    by_cases hk : k' = k
    · subst hk
      rw [if_pos h, get?, get?, if_pos rfl, if_pos rfl]
    · rw [get?, if_neg hk, ← ih]
      split
      · rw [get?, if_neg hk]
      · rfl

theorem mem_keys_filter {p : String → Bool} :
    k ∈ keys (entries.filter fun entry => p entry.1) ↔ k ∈ entries.keys ∧ p k = true := by
  simp only [keys, List.mem_map, List.mem_filter]
  constructor
  · rintro ⟨entry, ⟨he, hp⟩, rfl⟩
    exact ⟨⟨entry, he, rfl⟩, hp⟩
  · rintro ⟨⟨entry, he, rfl⟩, hp⟩
    exact ⟨entry, ⟨he, hp⟩, rfl⟩

/-- Inserts several values, one after the other. -/
def insertAll (entries : Entries α) (f : β → α) (more : Entries β) : Entries α :=
  more.foldl (fun done entry => done.insert entry.1 (f entry.2)) entries

/-- What is found after several insertions was inserted, or was there before. -/
theorem get?_insertAll {f : β → α} {more : Entries β}
    (h : (entries.insertAll f more).get? k = some v) :
    (∃ entry ∈ more, entry.1 = k ∧ f entry.2 = v) ∨ k ∉ more.keys ∧ entries.get? k = some v := by
  induction more generalizing entries with
  | nil => exact .inr ⟨List.not_mem_nil, h⟩
  | cons entry rest ih =>
    rcases ih h with ⟨e, he, hk⟩ | ⟨hn, hg⟩
    · exact .inl ⟨e, List.mem_cons_of_mem _ he, hk⟩
    · by_cases hk : k = entry.1
      · subst hk
        rw [get?_insert_self] at hg
        exact .inl ⟨entry, List.mem_cons_self, rfl, Option.some.inj hg⟩
      · rw [get?_insert_of_ne _ _ hk] at hg
        refine .inr ⟨?_, hg⟩
        show k ∉ entry.1 :: Entries.keys rest
        exact List.not_mem_cons_of_ne_of_not_mem hk hn

theorem get?_insertAll_of_not_mem {f : β → α} {more : Entries β} (h : k ∉ more.keys) :
    (entries.insertAll f more).get? k = entries.get? k := by
  induction more generalizing entries with
  | nil => rfl
  | cons entry rest ih =>
    have h : k ∉ entry.1 :: Entries.keys rest := h
    rw [List.mem_cons, not_or] at h
    exact (ih h.2).trans (get?_insert_of_ne _ _ h.1)

theorem mem_keys_insertAll {f : β → α} {more : Entries β} :
    k ∈ (entries.insertAll f more).keys ↔ k ∈ more.keys ∨ k ∈ entries.keys := by
  induction more generalizing entries with
  | nil => exact ⟨.inr, fun h => h.resolve_left List.not_mem_nil⟩
  | cons entry rest ih =>
    refine ih.trans ?_
    rw [mem_keys_insert]
    show _ ↔ k ∈ entry.1 :: Entries.keys rest ∨ _
    rw [List.mem_cons]
    tauto

theorem mem_insertAll {f : β → α} {more : Entries β} {entry : String × α}
    (h : entry ∈ entries.insertAll f more) :
    (∃ e ∈ more, entry = (e.1, f e.2)) ∨ entry ∈ entries := by
  induction more generalizing entries with
  | nil => exact .inr h
  | cons first rest ih =>
    rcases ih h with ⟨e, he, rfl⟩ | h
    · exact .inl ⟨e, List.mem_cons_of_mem _ he, rfl⟩
    · rcases mem_insert h with rfl | h
      · exact .inl ⟨first, List.mem_cons_self, rfl⟩
      · exact .inr h

theorem nodup_keys_insertAll {f : β → α} {more : Entries β} (h : entries.keys.Nodup) :
    (entries.insertAll f more).keys.Nodup := by
  induction more generalizing entries with
  | nil => exact h
  | cons entry rest ih => exact ih (nodup_keys_insert h)

theorem nodup_keys_filter {p : String × α → Bool} (h : entries.keys.Nodup) :
    (keys (entries.filter p)).Nodup :=
  h.sublist (List.filter_sublist.map _)

/-- An insertion does not show among the entries with other keys. -/
theorem filter_insert_of_neg {p : String → Bool} (entries : Entries α) (value : α)
    (h : p key = false) :
    (entries.insert key value).filter (fun entry => p entry.1) =
      entries.filter fun entry => p entry.1 := by
  have hskip : ∀ (v : α) (rest : Entries α),
      ((key, v) :: rest).filter (fun entry => p entry.1) = rest.filter fun entry => p entry.1 := by
    intro v rest
    rw [List.filter_cons, h]
    rfl
  induction entries with
  | nil => exact hskip value []
  | cons entry rest ih =>
    obtain ⟨k', v'⟩ := entry
    rw [insert]
    split
    · rename_i hk
      subst hk
      rw [hskip, hskip]
    · rw [List.filter_cons, List.filter_cons, ih]

theorem filter_insertAll_of_neg {p : String → Bool} {f : β → α} {more : Entries β}
    (h : ∀ k ∈ more.keys, p k = false) :
    (entries.insertAll f more).filter (fun entry => p entry.1) =
      entries.filter fun entry => p entry.1 := by
  induction more generalizing entries with
  | nil => rfl
  | cons entry rest ih =>
    obtain ⟨hfirst, hrest⟩ := List.forall_mem_cons.mp h
    exact (ih hrest).trans (filter_insert_of_neg entries _ hfirst)

/-! ## Insertions of new keys -/

theorem insert_of_not_mem (h : key ∉ entries.keys) :
    entries.insert key value = entries ++ [(key, value)] := by
  induction entries with
  | nil => rfl
  | cons entry rest ih =>
    obtain ⟨k', v'⟩ := entry
    have h : key ∉ k' :: keys rest := h
    rw [List.mem_cons, not_or] at h
    rw [insert, if_neg (Ne.symm h.1), ih h.2, List.cons_append]

/-- New keys go to the end in their order. -/
theorem insertAll_of_nodup {f : β → α} {more : Entries β}
    (h : (entries.keys ++ more.keys).Nodup) :
    entries.insertAll f more = entries ++ more.map fun entry => (entry.1, f entry.2) := by
  induction more generalizing entries with
  | nil => exact (List.append_nil _).symm
  | cons entry rest ih =>
    have hk : (entries.keys ++ entry.1 :: keys rest).Nodup := h
    have hnot : entry.1 ∉ entries.keys :=
      fun hm => List.disjoint_of_nodup_append hk hm List.mem_cons_self
    have hsplit : keys (entries ++ [(entry.1, f entry.2)]) ++ keys rest =
        entries.keys ++ entry.1 :: keys rest := by
      unfold keys
      rw [List.map_append, List.append_assoc]
      rfl
    show (entries.insert entry.1 (f entry.2)).insertAll f rest = _
    rw [insert_of_not_mem hnot, ih (hsplit ▸ hk), List.append_assoc]
    rfl

theorem merged_eq (entries : Entries α) : entries.merged = insertAll [] id entries := rfl

/-- Entries with distinct keys are settled. -/
theorem merged_of_nodup (h : entries.keys.Nodup) : entries.merged = entries := by
  have hall : insertAll [] id entries = [] ++ entries.map fun entry => (entry.1, id entry.2) :=
    insertAll_of_nodup h
  exact hall.trans ((List.nil_append _).trans (List.map_id _))

/-! ## Insertions that change nothing -/

theorem insert_of_get? (h : entries.get? key = some value) :
    entries.insert key value = entries := by
  induction entries with
  | nil => cases h
  | cons entry rest ih =>
    obtain ⟨k', v'⟩ := entry
    rw [get?] at h
    rw [insert]
    split at h
    · rename_i hk
      cases h
      rw [if_pos hk, hk]
    · rename_i hk
      rw [if_neg hk, ih h]

theorem insertAll_of_get? {f : β → α} {more : Entries β}
    (h : ∀ entry ∈ more, entries.get? entry.1 = some (f entry.2)) :
    entries.insertAll f more = entries := by
  induction more with
  | nil => rfl
  | cons entry rest ih =>
    show (entries.insert entry.1 (f entry.2)).insertAll f rest = entries
    rw [insert_of_get? (h entry List.mem_cons_self)]
    exact ih fun e he => h e (List.mem_cons_of_mem _ he)

/-- An insertion adds no other key a second time. -/
theorem filter_keys_insert_of_ne (entries : Entries α) (value : α) (h : key ≠ k) :
    (entries.insert key value).keys.filter (· == k) = entries.keys.filter (· == k) := by
  induction entries with
  | nil => simp [insert, keys, h]
  | cons entry rest ih =>
    obtain ⟨k', v'⟩ := entry
    by_cases hk : k' = key
    · subst hk
      simp [insert, keys]
    · simp only [keys] at ih
      simp only [insert, hk, ↓reduceIte, keys, List.map_cons, List.filter_cons, ih]

theorem keys_insert_of_mem (h : key ∈ entries.keys) :
    (entries.insert key value).keys = entries.keys := by
  induction entries with
  | nil => cases h
  | cons entry rest ih =>
    obtain ⟨k, v⟩ := entry
    rw [insert]
    split
    · rename_i hk
      subst hk
      rfl
    · rename_i hk
      have hrest : key ∈ keys rest := (List.mem_cons.mp h).resolve_left fun e => hk e.symm
      exact congrArg (k :: ·) (ih hrest)

/-- Which keys there are after an insertion does not depend on the values. -/
theorem keys_insert_congr (h : entries.keys = entries'.keys) :
    (entries.insert key value).keys = (entries'.insert key v).keys := by
  induction entries generalizing entries' with
  | nil =>
    obtain rfl := List.map_eq_nil_iff.mp h.symm
    rfl
  | cons entry rest ih =>
    obtain ⟨k, v⟩ := entry
    obtain ⟨⟨k', v'⟩, rest', rfl⟩ : ∃ entry' rest', entries' = entry' :: rest' := by
      refine List.exists_cons_of_ne_nil ?_
      rintro rfl
      cases h
    obtain ⟨rfl, hrest⟩ := List.cons_eq_cons.mp h
    rw [insert, insert]
    split
    · exact congrArg (key :: ·) hrest
    · exact congrArg (k :: ·) (ih hrest)

/-! ## Entries laid over others -/

theorem insert_insert_self (entries : Entries α) (key : String) (v value : α) :
    (entries.insert key v).insert key value = entries.insert key value := by
  induction entries with
  | nil => simp [insert]
  | cons entry rest ih =>
    obtain ⟨k', v'⟩ := entry
    by_cases h : k' = key
    · simp [insert, h]
    · simpa [insert, h] using ih

/-- Replacing the value of a key may wait for another insertion. -/
theorem insert_comm (h : key ∈ entries.keys) (hk : k ≠ key) :
    (entries.insert k v).insert key value = (entries.insert key value).insert k v := by
  induction entries with
  | nil => cases h
  | cons entry rest ih =>
    obtain ⟨k', v'⟩ := entry
    by_cases hkey : k' = key
    · subst hkey
      simp [insert, hk.symm]
    · have hrest : key ∈ keys rest := (List.mem_cons.mp h).resolve_left fun e => hkey e.symm
      by_cases hother : k' = k
      · subst hother
        simp [insert, hk]
      · simpa [insert, hkey, hother] using ih hrest

theorem insertAll_insert_comm {f : β → α} {more : Entries β} (h : key ∈ entries.keys)
    (hm : key ∉ more.keys) :
    (entries.insertAll f more).insert key value = (entries.insert key value).insertAll f more := by
  induction more generalizing entries with
  | nil => rfl
  | cons entry rest ih =>
    have hm : key ∉ entry.1 :: keys rest := hm
    rw [List.mem_cons, not_or] at hm
    have hin : key ∈ (entries.insert entry.1 (f entry.2)).keys := mem_keys_insert.mpr (.inr h)
    refine (ih hin hm.2).trans ?_
    rw [insert_comm h (Ne.symm hm.1)]
    rfl

/-- The entry inserted last may be added to the others first. -/
theorem insertAll_insert {f : β → α} {more : Entries β} (hn : more.keys.Nodup) (b : β) :
    entries.insertAll f (more.insert key b) = (entries.insertAll f more).insert key (f b) := by
  induction more generalizing entries with
  | nil => rfl
  | cons entry rest ih =>
    obtain ⟨k', b'⟩ := entry
    obtain ⟨hk, hrest⟩ := List.nodup_cons.mp hn
    rw [insert]
    split
    · rename_i he
      subst he
      have hin : k' ∈ (entries.insert k' (f b')).keys := mem_keys_insert.mpr (.inl rfl)
      refine Eq.trans ?_ (insertAll_insert_comm hin hk).symm
      rw [insert_insert_self]
      rfl
    · exact ih hrest

theorem get?_insertAll_of_nodup {f : β → α} {more : Entries β} (hn : more.keys.Nodup) :
    (entries.insertAll f more).get? k = ((more.get? k).map f).or (entries.get? k) := by
  induction more generalizing entries with
  | nil => rfl
  | cons entry rest ih =>
    obtain ⟨k', b'⟩ := entry
    obtain ⟨hk, hrest⟩ := List.nodup_cons.mp hn
    refine (ih hrest).trans ?_
    show _ = ((if k' = k then some b' else get? rest k).map f).or (entries.get? k)
    split
    · rename_i he
      subst he
      rw [get?_eq_none_of_not_mem hk, get?_insert_self]
      rfl
    · rename_i he
      rw [get?_insert_of_ne _ _ (Ne.symm he)]

/-- The same insertions a second time change nothing. -/
theorem insertAll_insertAll {f : β → α} {more : Entries β} (hn : more.keys.Nodup) :
    (entries.insertAll f more).insertAll f more = entries.insertAll f more := by
  apply insertAll_of_get?
  intro entry he
  rw [get?_insertAll_of_nodup hn, get?_of_mem hn he]
  rfl

/-- Entries over others, which they replace or extend. -/
def overlay (base kept : Entries α) : Entries α := base.insertAll id kept

theorem overlay_insert {base kept : Entries α} (hn : kept.keys.Nodup) :
    base.overlay (kept.insert key value) = (base.overlay kept).insert key value :=
  insertAll_insert hn value

theorem get?_overlay {base kept : Entries α} (hn : kept.keys.Nodup) :
    (base.overlay kept).get? k = (kept.get? k).or (base.get? k) := by
  rw [overlay, get?_insertAll_of_nodup hn, Option.map_id, id]

end Entries

namespace Table

variable {α : Type _}

theorem entries_ofList (entries : Entries α) :
    (ofList entries).entries = Entries.insertAll [] id entries := by
  suffices hs : ∀ t : Table α, (entries.foldl (fun t entry => t.insert entry.1 entry.2) t).entries =
      Entries.insertAll t.entries id entries from hs empty
  induction entries with
  | nil => exact fun _ => rfl
  | cons entry rest ih => exact fun t => ih (t.insert entry.1 entry.2)

/-- A table of distinct keys is their list. -/
theorem entries_ofList_of_nodup {entries : Entries α} (h : entries.keys.Nodup) :
    (ofList entries).entries = entries :=
  (entries_ofList entries).trans (Entries.merged_of_nodup h)

theorem mem_keys_ofList {k : String} {entries : Entries α} :
    k ∈ (ofList entries).keys ↔ k ∈ entries.keys := by
  unfold keys
  rw [entries_ofList, Entries.mem_keys_insertAll]
  exact or_iff_left List.not_mem_nil

theorem mem_ofList {entry : String × α} {entries : Entries α}
    (h : entry ∈ (ofList entries).entries) : entry ∈ entries := by
  have hg := Entries.get?_of_mem (ofList entries).distinct h
  rw [entries_ofList] at hg
  rcases Entries.get?_insertAll hg with ⟨e, he, hk, hv⟩ | ⟨-, hg⟩
  · rwa [show entry = e from Prod.ext hk.symm hv.symm]
  · cases hg

end Table

end ElementWrappers

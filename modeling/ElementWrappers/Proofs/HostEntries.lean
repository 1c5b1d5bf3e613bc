import Mathlib
import ElementWrappers.Proofs.PlannedPaths
import ElementWrappers.Proofs.SourceReading

/-!
# Host entries of value accessors

Configurations of one kind are merged, and the directive of the kind has one host
entry for each pair of an event and an attribute. A host object has one value for
each key, though, and the keys are the events alone: so every pair takes effect
exactly when no two configurations of one kind read different attributes on one
event (`bindsAll_iff`).
-/

namespace ElementWrappers

open Text

/-! ## Groups -/

namespace AccessorGroup

variable {groups : List AccessorGroup} {configs : List AccessorConfig} {g : AccessorGroup}

/-- What a configuration does to the group of a kind, if there is one already. -/
def extend (k : AccessorKind) (group : Option AccessorGroup) (c : AccessorConfig) :
    Option AccessorGroup :=
  some ((group.getD ⟨k, [], []⟩).add c)

/-- The configurations of one kind. -/
def configsOf (k : AccessorKind) (configs : List AccessorConfig) : List AccessorConfig :=
  configs.filter fun c => c.kind == k

theorem find?_addTo (groups : List AccessorGroup) (c : AccessorConfig) (k : AccessorKind) :
    (addTo groups c).find? (fun g => g.kind == k) =
      if c.kind = k then extend k (groups.find? fun g => g.kind == k) c
      else groups.find? fun g => g.kind == k := by
  induction groups with
  | nil =>
    by_cases hk : c.kind = k
    · simp [addTo, add, extend, hk]
    · simp [addTo, add, hk]
  | cons g rest ih =>
    rw [addTo]
    by_cases hc : g.kind = c.kind
    · by_cases hk : c.kind = k
      · simp [add, extend, hc, hk]
      · simp [add, hc, hk]
    · by_cases hg : g.kind = k
      · have hk : c.kind ≠ k := fun he => hc (hg.trans he.symm)
        rw [if_neg hc, if_neg hk]
        simp [hg]
      · simp [hc, hg, ih]

/-- The group of a kind has taken in the configurations of that kind, in order. -/
theorem find?_foldl_addTo (configs : List AccessorConfig) (groups : List AccessorGroup)
    (k : AccessorKind) : (configs.foldl addTo groups).find? (fun g => g.kind == k) =
      (configsOf k configs).foldl (extend k) (groups.find? fun g => g.kind == k) := by
  induction configs generalizing groups with
  | nil => rfl
  | cons c rest ih =>
    rw [List.foldl_cons, ih, find?_addTo, configsOf, configsOf, List.filter_cons]
    by_cases hk : c.kind = k
    · rw [if_pos hk, if_pos (beq_iff_eq.mpr hk), List.foldl_cons]
    · rw [if_neg hk, if_neg fun h => hk (beq_iff_eq.mp h)]

theorem foldl_extend (k : AccessorKind) (c : AccessorConfig) (rest : List AccessorConfig)
    (group : Option AccessorGroup) : (c :: rest).foldl (extend k) group =
      some ((c :: rest).foldl add (group.getD ⟨k, [], []⟩)) := by
  induction rest generalizing c group with
  | nil => rfl
  | cons next rest ih =>
    rw [List.foldl_cons, ih]
    rfl

theorem foldl_add (cs : List AccessorConfig) (g : AccessorGroup) :
    cs.foldl add g = ⟨g.kind, (cs.flatMap fun c => c.selectors.toList).foldl addNew g.selectors,
      (cs.map AccessorConfig.target).foldl addNew g.targets⟩ := by
  induction cs generalizing g with
  | nil => rfl
  | cons c rest ih =>
    rw [List.foldl_cons, ih, List.flatMap_cons, List.foldl_append]
    rfl

theorem find?_ofConfigs (h : g ∈ ofConfigs configs) :
    (ofConfigs configs).find? (fun other => other.kind == g.kind) = some g := by
  have hsome : ((ofConfigs configs).find? fun other => other.kind == g.kind).isSome :=
    List.find?_isSome.mpr ⟨g, h, beq_self_eq_true _⟩
  obtain ⟨other, ho⟩ := Option.isSome_iff_exists.mp hsome
  have hkind : other.kind = g.kind := by simpa using List.find?_some ho
  rw [ho, List.inj_on_of_nodup_map (nodup_kinds_ofConfigs configs) (List.mem_of_find?_eq_some ho) h
    hkind]

/-- A group has the selectors and targets of the configurations of its kind, each
once. -/
theorem eq_of_mem_ofConfigs (h : g ∈ ofConfigs configs) :
    g = ⟨g.kind, ((configsOf g.kind configs).flatMap fun c => c.selectors.toList).foldl addNew [],
      ((configsOf g.kind configs).map AccessorConfig.target).foldl addNew []⟩ := by
  have hfind := find?_ofConfigs h
  rw [ofConfigs, find?_foldl_addTo] at hfind
  cases hc : configsOf g.kind configs with
  | nil =>
    rw [hc] at hfind
    cases hfind
  | cons c rest =>
    rw [hc, foldl_extend, foldl_add] at hfind
    exact (Option.some.inj hfind).symm

theorem exists_group {c : AccessorConfig} (h : c ∈ configs) :
    ∃ g ∈ ofConfigs configs, g.kind = c.kind := by
  have hmem : c ∈ configsOf c.kind configs := List.mem_filter.mpr ⟨h, beq_self_eq_true _⟩
  obtain ⟨first, rest, hc⟩ := List.exists_cons_of_ne_nil (List.ne_nil_of_mem hmem)
  have hfind := find?_foldl_addTo configs [] c.kind
  rw [hc, foldl_extend] at hfind
  exact ⟨_, List.mem_of_find?_eq_some hfind, by simpa using List.find?_some hfind⟩

theorem mem_targets_iff (h : g ∈ ofConfigs configs) {t : EventTarget} :
    t ∈ g.targets ↔ ∃ c ∈ configs, c.kind = g.kind ∧ c.target = t := by
  rw [congrArg targets (eq_of_mem_ofConfigs h), mem_foldl_addNew_iff]
  simp [configsOf, and_assoc]

theorem nodup_targets (h : g ∈ ofConfigs configs) : g.targets.Nodup := by
  rw [congrArg targets (eq_of_mem_ofConfigs h)]
  exact nodup_foldl_addNew List.nodup_nil

theorem mem_selectors_iff (h : g ∈ ofConfigs configs) {s : String} :
    s ∈ g.selectors ↔ ∃ c ∈ configs, c.kind = g.kind ∧ s ∈ c.selectors.toList := by
  rw [congrArg selectors (eq_of_mem_ofConfigs h), mem_foldl_addNew_iff]
  simp [configsOf, and_assoc]

end AccessorGroup

/-! ## The host object -/

/-- The entries of an object of quoted keys and values, in the pieces between its
quotes: `mark` goes before the next key. -/
def entriesFrom (mark : List Char) : List (List Char) → Option (List (String × String))
  | [gap] => if trim gap = [] then some [] else none
  | gap :: key :: colon :: value :: rest =>
    if trim gap = mark ∧ trim colon = [':'] then
      (entriesFrom [','] rest).map ((String.ofList key, String.ofList value) :: ·)
    else none
  | _ => none

/-- The entries of an object of quoted keys and values without escapes. -/
def readEntries (text : String) : Option (List (String × String)) :=
  if '\\' ∈ text.toList then none else entriesFrom [] (text.toList.splitOn '\'')

/-- The entries of the host object of a directive. -/
def readHost (source : String) : Option (List (String × String)) :=
  readEntries ("\n".intercalate (between "  host: \x7b" "  \x7d," (linesOf source)))

/-- The value of a key: of entries with one key, the last one counts. -/
def valueOf (entries : List (String × String)) (key : String) : Option String :=
  (entries.reverse.find? fun entry => entry.1 == key).map Prod.snd

theorem valueOf_of_nodup {entries : List (String × String)} (h : (entries.map Prod.fst).Nodup)
    {key value : String} (hm : (key, value) ∈ entries) : valueOf entries key = some value := by
  have hsome : (entries.reverse.find? fun entry => entry.1 == key).isSome :=
    List.find?_isSome.mpr ⟨(key, value), List.mem_reverse.mpr hm, beq_self_eq_true _⟩
  obtain ⟨entry, he⟩ := Option.isSome_iff_exists.mp hsome
  have hmem := List.mem_reverse.mp (List.mem_of_find?_eq_some he)
  have hkey : entry.1 = key := by simpa using List.find?_some he
  rw [valueOf, he, List.inj_on_of_nodup_map h hmem hm hkey]
  rfl

namespace Text

/-- A text that can be quoted as it is. -/
structure IsPlain (text : String) : Prop extends IsListable text where
  backslash : '\\' ∉ text.toList

theorem isPlain_iff {text : String} :
    IsPlain text ↔ '\'' ∉ text.toList ∧ '\n' ∉ text.toList ∧ '\\' ∉ text.toList :=
  ⟨fun ⟨⟨hq, hn⟩, hb⟩ => ⟨hq, hn, hb⟩, fun ⟨hq, hn, hb⟩ => ⟨⟨hq, hn⟩, hb⟩⟩

instance (text : String) : Decidable (IsPlain text) := decidable_of_iff' _ isPlain_iff

theorem isPlain_append_iff {a b : String} : IsPlain (a ++ b) ↔ IsPlain a ∧ IsPlain b := by
  simp only [isPlain_iff, String.toList_append, List.mem_append, not_or]
  tauto

end Text

namespace EventTarget

/-- The key of the host entry for an event. -/
def key (event : String) : String := "(" ++ event ++ ")"

/-- The handler that reads an attribute of the event's target. -/
def handler (attr : String) : String := "handleChangeEvent($event.target." ++ attr ++ ")"

def entry (t : EventTarget) : String × String := (key t.event, handler t.attr)

variable {t : EventTarget}

theorem key_injective : Function.Injective key := fun _ _ h =>
  (String.append_right_inj _).mp ((String.append_left_inj _).mp h)

/-- Both parts of a target can be quoted as they are. -/
structure IsPlain (t : EventTarget) : Prop where
  event : Text.IsPlain t.event
  attr : Text.IsPlain t.attr

theorem hostEntry_eq (t : EventTarget) : AccessorGroup.hostEntry t =
    "'" ++ (key t.event ++ ("'" ++ (": " ++ ("'" ++ (handler t.attr ++ "'"))))) := by
  have hopen : "'(" = "'" ++ "(" := by simp
  have hmid : ")': 'handleChangeEvent($event.target." =
      ")" ++ ("'" ++ (": " ++ ("'" ++ "handleChangeEvent($event.target."))) := by simp
  have hlast : ")'" = ")" ++ "'" := by simp
  unfold AccessorGroup.hostEntry key handler
  rw [hopen, hmid, hlast]
  simp only [String.append_assoc]

theorem IsPlain.key (h : t.IsPlain) : Text.IsPlain (key t.event) := by
  have hopen : Text.IsPlain "(" := by decide_cbv
  have hclose : Text.IsPlain ")" := by decide_cbv
  unfold EventTarget.key
  rw [isPlain_append_iff, isPlain_append_iff]
  exact ⟨⟨hopen, h.event⟩, hclose⟩

theorem IsPlain.handler (h : t.IsPlain) : Text.IsPlain (handler t.attr) := by
  have hopen : Text.IsPlain "handleChangeEvent($event.target." := by decide_cbv
  have hclose : Text.IsPlain ")" := by decide_cbv
  unfold EventTarget.handler
  rw [isPlain_append_iff, isPlain_append_iff]
  exact ⟨⟨hopen, h.attr⟩, hclose⟩

/-- Only the quotes of an entry cut it. -/
theorem splitOn_hostEntry (h : t.IsPlain) {gap : List Char} (hg : '\'' ∉ gap) (rest : List Char) :
    (gap ++ ((AccessorGroup.hostEntry t).toList ++ rest)).splitOn '\'' =
      gap :: (key t.event).toList :: [':', ' '] :: (handler t.attr).toList ::
        rest.splitOn '\'' := by
  have hcolon : '\'' ∉ [':', ' '] := by decide
  have hentry : (AccessorGroup.hostEntry t).toList ++ rest =
      '\'' :: ((key t.event).toList ++ '\'' :: ([':', ' '] ++ '\'' ::
        ((handler t.attr).toList ++ '\'' :: rest))) := by
    rw [hostEntry_eq]
    simp
  rw [hentry, splitOn_quoted hg h.key.quote, splitOn_quoted hcolon h.handler.quote]

theorem not_mem_hostEntry (h : t.IsPlain) {c : Char} (hc : c = '\\' ∨ c = '\n') :
    c ∉ (AccessorGroup.hostEntry t).toList := by
  have hkey := h.key
  have hhandler := h.handler
  rw [hostEntry_eq]
  rcases hc with rfl | rfl
  · simp [hkey.backslash, hhandler.backslash]
  · simp [hkey.newline, hhandler.newline]

end EventTarget

namespace AccessorGroup

variable {g : AccessorGroup}

/-- The entries of a written host are those of its targets. -/
theorem entriesFrom_host {mark gap : List Char} (hgap : '\'' ∉ gap) (hmark : trim gap = mark)
    (t : EventTarget) (rest : List EventTarget) (h : ∀ u ∈ t :: rest, u.IsPlain) :
    entriesFrom mark
      ((gap ++ (",\n    ".intercalate ((t :: rest).map hostEntry)).toList).splitOn '\'') =
      some ((t :: rest).map EventTarget.entry) := by
  have hcolon : trim [':', ' '] = [':'] := by decide
  induction rest generalizing mark gap t with
  | nil =>
    have hsplit := EventTarget.splitOn_hostEntry (h t List.mem_cons_self) hgap []
    rw [List.append_nil] at hsplit
    rw [List.map_singleton, String.intercalate_singleton, hsplit, entriesFrom,
      if_pos ⟨hmark, hcolon⟩]
    simp [entriesFrom, trim, trimEnd, trimStart, EventTarget.entry]
  | cons next rest ih =>
    have hgap' : '\'' ∉ ",\n    ".toList := by decide_cbv
    have hmark' : trim ",\n    ".toList = [','] := by decide_cbv
    have hnext := ih hgap' hmark' next fun u hu => h u (List.mem_cons_of_mem _ hu)
    rw [List.map_cons, List.map_cons, String.intercalate_cons_cons, String.append_assoc,
      String.toList_append, EventTarget.splitOn_hostEntry (h t List.mem_cons_self) hgap,
      entriesFrom, if_pos ⟨hmark, hcolon⟩, String.toList_append]
    rw [List.map_cons] at hnext
    rw [hnext]
    simp [EventTarget.entry]

theorem not_mem_host (h : ∀ t ∈ g.targets, t.IsPlain) : '\\' ∉ g.host.toList := by
  refine intercalate_of_forall (P := fun text => '\\' ∉ text) List.not_mem_nil
    (fun hx hy => List.not_mem_append hx hy) (by decide_cbv) (List.forall_mem_map.mpr ?_)
  exact fun t ht => EventTarget.not_mem_hostEntry (h t ht) (.inl rfl)

/-- A host is written in lines of one indentation. -/
theorem marked_host (h : ∀ t ∈ g.targets, t.IsPlain) : Marked "    ".toList g.host.toList := by
  have hsep : Marked "    ".toList ",\n    ".toList := by
    have hspaces : '\n' ∉ "    ".toList := by decide_cbv
    have hcut : ",\n    ".toList = [','] ++ '\n' :: "    ".toList := by simp
    rw [hcut, marked_append_iff (by decide), marked_newline_iff]
    exact ⟨List.prefix_refl _, marked_of_not_mem hspaces⟩
  refine intercalate_of_forall (marked_of_not_mem List.not_mem_nil) Marked.append hsep
    (List.forall_mem_map.mpr fun t ht => marked_of_not_mem ?_)
  exact EventTarget.not_mem_hostEntry (h t ht) (.inr rfl)

theorem marked_fillFrom {mark found filling text : List Char} (hf : Marked mark filling)
    (ht : '\n' ∉ text) (skipped : Nat) : Marked mark (fillFrom found filling skipped text) := by
  induction text generalizing skipped with
  | nil => exact marked_of_not_mem List.not_mem_nil
  | cons c rest ih =>
    obtain ⟨hc, hrest⟩ := List.ne_and_not_mem_of_not_mem_cons ht
    cases skipped with
    | succ n => exact ih hrest n
    | zero =>
      rw [fillFrom]
      split
      · exact hf.append (ih hrest _)
      · exact (marked_append_iff (x := [c]) (by simpa using hc)).mpr (ih hrest 0)

/-- The host object stands in lines of its own, behind the selector. -/
theorem exists_source (g : AccessorGroup) : ∃ head rest, g.source =
    sourceText (head ++ ("  selector: '" ++ g.selector ++ "',") :: "  host: \x7b" ::
      ("    " ++ g.host) :: "  \x7d," :: rest) ∧ "  host: \x7b" ∉ head.flatMap linesOf :=
  ⟨[_, _, _, _, _, _, _], _, rfl, by decide_cbv⟩

/-- Nothing that a group may be made of keeps its directive from being read. -/
structure IsPlain (g : AccessorGroup) : Prop where
  targets : ∀ t ∈ g.targets, t.IsPlain
  selectors : ∀ s ∈ g.selectors, '\n' ∉ s.toList

theorem marked_selector (h : g.IsPlain) : Marked "    ".toList g.selector.toList := by
  have hjoined : '\n' ∉ (", ".intercalate g.selectors).toList :=
    intercalate_of_forall (P := fun text => '\n' ∉ text) List.not_mem_nil
      (fun hx hy => List.not_mem_append hx hy) (by decide_cbv) h.selectors
  have hfilled : g.selector.toList =
      fill targetsMark g.host.toList (", ".intercalate g.selectors).toList := String.toList_ofList
  rw [hfilled]
  exact marked_fillFrom (marked_host h.targets) hjoined 0

/-- What is written for the host is read as the entries of the targets. -/
theorem readEntries_host (h : ∀ t ∈ g.targets, t.IsPlain) :
    readEntries ("    " ++ g.host) = some (g.targets.map EventTarget.entry) := by
  have hspaces : '\'' ∉ "    ".toList ∧ '\\' ∉ "    ".toList := by decide_cbv
  have hescape : '\\' ∉ ("    " ++ g.host).toList := by
    rw [String.toList_append]
    exact List.not_mem_append hspaces.2 (not_mem_host h)
  rw [readEntries, if_neg hescape, String.toList_append]
  cases ht : g.targets with
  | nil =>
    rw [host, ht]
    decide_cbv
  | cons t rest =>
    rw [host, ht]
    exact entriesFrom_host hspaces.1 (by decide_cbv) t rest (ht ▸ h)

/-- The directive of a group has the entries of its targets. -/
theorem readHost_source (h : g.IsPlain) :
    readHost g.source = some (g.targets.map EventTarget.entry) := by
  obtain ⟨head, rest, hs, hhead⟩ := exists_source g
  have hspaces : '\n' ∉ "    ".toList := by decide_cbv
  -- neither line that frames the host is one of the lines before it or inside it
  have hselector : "  host: \x7b" ∉ linesOf ("  selector: '" ++ g.selector ++ "',") := by
    intro hl
    have hmarked : Marked "    ".toList ("  selector: '" ++ g.selector ++ "',").toList := by
      rw [String.toList_append, String.toList_append]
      exact ((marked_of_not_mem (by decide_cbv)).append (marked_selector h)).append
        (marked_of_not_mem (by decide_cbv))
    rcases prefix_or_marked hspaces hmarked hl with hp | hp
    · have hq : "  selector: '".toList <+: ("  selector: '" ++ g.selector ++ "',").toList := by
        rw [String.append_assoc, String.toList_append]
        exact List.prefix_append _ _
      exact absurd (List.prefix_of_prefix_length_le hp hq (by decide_cbv)) (by decide_cbv)
    · exact absurd hp (by decide_cbv)
  have hhost : "  \x7d," ∉ linesOf ("    " ++ g.host) := by
    intro hl
    have hmarked := (marked_append_iff hspaces).mpr (marked_host h.targets)
    rw [← String.toList_append] at hmarked
    have hfirst : "    ".toList <+: ("    " ++ g.host).toList := by
      rw [String.toList_append]
      exact List.prefix_append _ _
    exact absurd ((forall_linesOf_iff hspaces).mpr ⟨hfirst, hmarked⟩ _ hl) (by decide_cbv)
  have hlines : linesOf g.source =
      (head.flatMap linesOf ++ linesOf ("  selector: '" ++ g.selector ++ "',")) ++
        "  host: \x7b" :: (linesOf ("    " ++ g.host) ++
          "  \x7d," :: (rest.flatMap linesOf ++ [""])) := by
    rw [hs, linesOf_sourceText]
    simp only [List.flatMap_append, List.flatMap_cons, List.append_assoc,
      linesOf_single (a := "  host: \x7b") (by decide_cbv),
      linesOf_single (a := "  \x7d,") (by decide_cbv), List.cons_append, List.nil_append]
  rw [readHost, hlines, between_append (List.not_mem_append hhead hselector) hhost,
    intercalate_linesOf, readEntries_host h.targets]

end AccessorGroup

/-! ## Bindings -/

/-- Nothing that a configuration is made of keeps its directive from being read. -/
structure AccessorConfig.IsPlain (c : AccessorConfig) : Prop where
  event : Text.IsPlain c.event
  attr : Text.IsPlain c.attr
  selectors : ∀ s ∈ c.selectors.toList, '\n' ∉ s.toList

theorem AccessorConfig.isPlain_iff {c : AccessorConfig} : c.IsPlain ↔
    Text.IsPlain c.event ∧ Text.IsPlain c.attr ∧ ∀ s ∈ c.selectors.toList, '\n' ∉ s.toList :=
  ⟨fun ⟨he, ha, hs⟩ => ⟨he, ha, hs⟩, fun ⟨he, ha, hs⟩ => ⟨he, ha, hs⟩⟩

instance (c : AccessorConfig) : Decidable c.IsPlain :=
  decidable_of_iff' _ AccessorConfig.isPlain_iff

/-- On one event, the configurations of one kind read one attribute. -/
def ReadsOnePerEvent (configs : List AccessorConfig) : Prop :=
  ∀ c ∈ configs, ∀ c' ∈ configs, c.kind = c'.kind → c.event = c'.event → c.attr = c'.attr

instance (configs : List AccessorConfig) : Decidable (ReadsOnePerEvent configs) :=
  inferInstanceAs (Decidable (∀ _ ∈ configs, _))

/-- Every configuration takes effect in the directive of its kind: no host object has
a key twice, and the host entry for its event reads its attribute. -/
structure BindsAll (configs : List AccessorConfig) : Prop where
  distinct : ∀ g ∈ AccessorGroup.ofConfigs configs, ∃ entries,
    readHost g.source = some entries ∧ (entries.map Prod.fst).Nodup
  bound : ∀ c ∈ configs, ∃ g ∈ AccessorGroup.ofConfigs configs, g.kind = c.kind ∧
    ∃ entries, readHost g.source = some entries ∧
      valueOf entries (EventTarget.key c.event) = some (EventTarget.handler c.attr)

section Bindings

variable {configs : List AccessorConfig} {g : AccessorGroup}

open AccessorGroup

theorem isPlain_of_mem_ofConfigs (h : ∀ c ∈ configs, c.IsPlain) (hg : g ∈ ofConfigs configs) :
    g.IsPlain := by
  constructor
  · intro t ht
    obtain ⟨c, hc, -, rfl⟩ := (mem_targets_iff hg).mp ht
    exact ⟨(h c hc).event, (h c hc).attr⟩
  · intro s hs
    obtain ⟨c, hc, -, hs⟩ := (mem_selectors_iff hg).mp hs
    exact (h c hc).selectors s hs

/-- The keys of a group are distinct if its events are. -/
theorem nodup_entries_iff (hg : g ∈ ofConfigs configs) :
    ((g.targets.map EventTarget.entry).map Prod.fst).Nodup ↔
      ∀ c ∈ configs, ∀ c' ∈ configs, c.kind = g.kind → c'.kind = g.kind → c.event = c'.event →
        c.attr = c'.attr := by
  have hkeys : (g.targets.map EventTarget.entry).map Prod.fst =
      g.targets.map fun t => EventTarget.key t.event := List.map_map
  rw [hkeys]
  constructor
  · intro hn c hc c' hc' hk hk' he
    have ht := (mem_targets_iff hg).mpr ⟨c, hc, hk, rfl⟩
    have ht' := (mem_targets_iff hg).mpr ⟨c', hc', hk', rfl⟩
    exact congrArg EventTarget.attr
      (List.inj_on_of_nodup_map hn ht ht' (congrArg EventTarget.key he))
  · intro h
    refine (nodup_targets hg).map_on fun t ht t' ht' he => ?_
    obtain ⟨c, hc, hk, rfl⟩ := (mem_targets_iff hg).mp ht
    obtain ⟨c', hc', hk', rfl⟩ := (mem_targets_iff hg).mp ht'
    have hevent := EventTarget.key_injective he
    exact EventTarget.mk.injEq .. ▸ ⟨hevent, h c hc c' hc' hk hk' hevent⟩

theorem readHost_of_mem_ofConfigs (h : ∀ c ∈ configs, c.IsPlain) (hg : g ∈ ofConfigs configs) :
    readHost g.source = some (g.targets.map EventTarget.entry) :=
  readHost_source (isPlain_of_mem_ofConfigs h hg)

theorem distinct_iff (h : ∀ c ∈ configs, c.IsPlain) :
    (∀ g ∈ ofConfigs configs, ∃ entries, readHost g.source = some entries ∧
      (entries.map Prod.fst).Nodup) ↔ ReadsOnePerEvent configs := by
  constructor
  · intro hd c hc c' hc' hk he
    obtain ⟨g, hg, hkind⟩ := exists_group hc
    obtain ⟨entries, hr, hn⟩ := hd g hg
    obtain rfl := Option.some.inj ((readHost_of_mem_ofConfigs h hg).symm.trans hr)
    exact (nodup_entries_iff hg).mp hn c hc c' hc' hkind.symm (hk.symm.trans hkind.symm) he
  · intro hone g hg
    refine ⟨_, readHost_of_mem_ofConfigs h hg, (nodup_entries_iff hg).mpr ?_⟩
    exact fun c hc c' hc' hk hk' => hone c hc c' hc' (hk.trans hk'.symm)

/-- Every configuration takes effect exactly if no two of one kind read different
attributes on one event. -/
theorem bindsAll_iff (h : ∀ c ∈ configs, c.IsPlain) :
    BindsAll configs ↔ ReadsOnePerEvent configs := by
  refine ⟨fun hb => (distinct_iff h).mp hb.distinct, fun hone => ?_⟩
  have hdistinct := (distinct_iff h).mpr hone
  refine ⟨hdistinct, fun c hc => ?_⟩
  obtain ⟨g, hg, hk⟩ := exists_group hc
  obtain ⟨entries, hr, hn⟩ := hdistinct g hg
  obtain rfl := Option.some.inj ((readHost_of_mem_ofConfigs h hg).symm.trans hr)
  have ht := (mem_targets_iff hg).mpr ⟨c, hc, hk.symm, rfl⟩
  exact ⟨g, hg, hk, _, hr,
    valueOf_of_nodup hn (List.mem_map_of_mem (f := EventTarget.entry) ht)⟩

end Bindings

/-- Two text inputs, a checkbox, and a text field that keeps its text in `attr`. -/
def fieldConfigs (attr : String) : List AccessorConfig :=
  [⟨.many ["my-input", "my-textarea"], "myChange", "value", .text⟩,
    ⟨.one "my-checkbox", "myChange", "checked", .boolean⟩,
    ⟨.one "my-field", "myChange", attr, .text⟩]

theorem bindsAll_iff_fields : (∀ c ∈ fieldConfigs "value", c.IsPlain) ∧
    (BindsAll (fieldConfigs "value") ↔ ReadsOnePerEvent (fieldConfigs "value")) ∧
      BindsAll (fieldConfigs "value") := by
  have hp : ∀ c ∈ fieldConfigs "value", c.IsPlain := by decide_cbv
  have hiff := bindsAll_iff hp
  exact ⟨hp, hiff, hiff.mpr (by decide_cbv)⟩

/-- Two attributes on one event make a host object with one key twice. -/
theorem not_bindsAll_fields : ¬ BindsAll (fieldConfigs "text") := by
  have hp : ∀ c ∈ fieldConfigs "text", c.IsPlain := by decide_cbv
  exact fun hb => absurd ((distinct_iff hp).mp hb.distinct) (by decide_cbv)

end ElementWrappers

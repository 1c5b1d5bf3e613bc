import Mathlib
import ElementWrappers.Path
import ElementWrappers.Proofs.TextLines

/-!
# Path texts and walks

A path text is read as a walk along its segments, so texts are compared by
where their walks end. `ofText_toText` says that a normal form is read back
as itself; `ofText_append` and `ofText_join` turn composed texts into composed
walks. An `IsAbsolute` text is the normal form of a place seen from the root.
-/

namespace ElementWrappers.Path

/-- A segment that leads one level down. -/
structure IsName (s : String) : Prop where
  ne_empty : s ≠ ""
  ne_dot : s ≠ "."
  ne_dots : s ≠ ".."
  no_slash : '/' ∉ s.toList
  no_backslash : '\\' ∉ s.toList

/-- All names of a path are names. -/
def IsNormal (p : Path) : Prop := ∀ s ∈ p.names, IsName s

/-! ## Walks -/

/-- Takes the steps of several segments. -/
def walk (p : Path) (segments : List String) : Path := segments.foldl step p

@[simp] theorem walk_nil (p : Path) : p.walk [] = p := rfl

@[simp] theorem walk_cons (p : Path) (s : String) (rest : List String) :
    p.walk (s :: rest) = (p.step s).walk rest := rfl

theorem walk_append (p : Path) (a b : List String) : p.walk (a ++ b) = (p.walk a).walk b :=
  List.foldl_append

@[simp] theorem step_empty (p : Path) : p.step "" = p := by simp [step]

@[simp] theorem step_dot (p : Path) : p.step "." = p := by simp [step]

theorem step_name (p : Path) {s : String} (h : IsName s) :
    p.step s = ⟨p.start, p.names ++ [s]⟩ := by
  simp [step, h.ne_empty, h.ne_dot, h.ne_dots]

theorem step_dots_concat (start : Start) (names : List String) (s : String) :
    step ⟨start, names ++ [s]⟩ ".." = ⟨start, names⟩ := by
  cases names with
  | nil => rfl
  | cons t rest =>
    show (⟨start, ((t :: rest) ++ [s]).dropLast⟩ : Path) = _
    rw [List.dropLast_concat]

/-- What a step can do. -/
theorem step_cases (p : Path) (s : String) :
    ((s = "" ∨ s = ".") ∧ p.step s = p) ∨
    (s = ".." ∧ p.names = [] ∧ p.step s = ⟨p.start.ascend, []⟩) ∨
    (s = ".." ∧ ∃ init last, p.names = init ++ [last] ∧ p.step s = ⟨p.start, init⟩) ∨
    (s ≠ "" ∧ s ≠ "." ∧ s ≠ ".." ∧ p.step s = ⟨p.start, p.names ++ [s]⟩) := by
  by_cases hidle : s = "" ∨ s = "."
  · exact .inl ⟨hidle, if_pos hidle⟩
  obtain ⟨hempty, hdot⟩ := not_or.mp hidle
  by_cases hdots : s = ".."
  · subst hdots
    obtain ⟨start, names⟩ := p
    rcases List.eq_nil_or_concat' names with rfl | ⟨init, last, rfl⟩
    · exact .inr (.inl ⟨rfl, rfl, rfl⟩)
    · exact .inr (.inr (.inl ⟨rfl, init, last, rfl, step_dots_concat start init last⟩))
  · exact .inr (.inr (.inr ⟨hempty, hdot, hdots, by rw [step, if_neg hidle, if_neg hdots]⟩))

theorem walk_names {p : Path} {segments : List String} (h : ∀ s ∈ segments, IsName s) :
    p.walk segments = ⟨p.start, p.names ++ segments⟩ := by
  induction segments generalizing p with
  | nil => simp
  | cons s rest ih =>
    rw [walk_cons, step_name p (h s List.mem_cons_self), ih fun t ht => h t (List.mem_cons_of_mem _ ht)]
    simp

/-- As many `..` as there are names lead back to the start of the names. -/
theorem walk_dots (start : Start) (names down : List String) :
    walk ⟨start, names ++ down⟩ (List.replicate down.length "..") = ⟨start, names⟩ := by
  induction down using List.reverseRecOn with
  | nil => simp
  | append_singleton down s ih =>
    rw [List.length_append, List.length_singleton, List.replicate_succ, walk_cons,
      ← List.append_assoc, step_dots_concat, ih]

theorem walk_dots_above (n k : Nat) :
    walk ⟨.above n, []⟩ (List.replicate k "..") = ⟨.above (n + k), []⟩ := by
  induction k generalizing n with
  | zero => rfl
  | succ k ih =>
    rw [List.replicate_succ, walk_cons]
    show walk ⟨.above (n + 1), []⟩ _ = _
    rw [ih, Nat.add_right_comm, Nat.add_assoc]

/-- A step leaves the start of a path or puts it one level higher. -/
theorem start_step (p : Path) (s : String) :
    (p.step s).start = p.start ∨ (p.step s).start = p.start.ascend := by
  rcases step_cases p s with ⟨-, he⟩ | ⟨-, -, he⟩ | ⟨-, _, _, -, he⟩ | ⟨-, -, -, he⟩
  · exact .inl (by rw [he])
  · exact .inr (by rw [he])
  · exact .inl (by rw [he])
  · exact .inl (by rw [he])

/-- A walk that starts at the root stays below it. -/
theorem start_walk_root {p : Path} (hp : p.start = .root) (segments : List String) :
    (p.walk segments).start = .root := by
  induction segments generalizing p with
  | nil => exact hp
  | cons s rest ih =>
    refine ih ?_
    rcases start_step p s with he | he
    · rw [he, hp]
    · rw [he, hp, Start.ascend]

theorem isNormal_step {p : Path} {s : String} (hp : p.IsNormal) (hs : '/' ∉ s.toList)
    (hb : '\\' ∉ s.toList) : (p.step s).IsNormal := by
  rcases step_cases p s with ⟨-, he⟩ | ⟨-, -, he⟩ | ⟨-, init, last, hn, he⟩ | ⟨h, hd, hdots, he⟩
  · rwa [he]
  · rw [he]
    exact List.forall_mem_nil _
  · rw [he]
    exact fun t ht => hp t (hn ▸ List.mem_append_left _ ht)
  · rw [he]
    intro t ht
    rcases List.mem_append.mp ht with ht | ht
    · exact hp t ht
    · rw [List.mem_singleton.mp ht]
      exact ⟨h, hd, hdots, hs, hb⟩

theorem isNormal_walk {p : Path} {segments : List String} (hp : p.IsNormal)
    (h : ∀ s ∈ segments, '/' ∉ s.toList ∧ '\\' ∉ s.toList) : (p.walk segments).IsNormal := by
  induction segments generalizing p with
  | nil => exact hp
  | cons s rest ih =>
    obtain ⟨hs, hb⟩ := h s List.mem_cons_self
    exact ih (isNormal_step hp hs hb) fun t ht => h t (List.mem_cons_of_mem _ ht)

/-! ## Segments -/

theorem segmentsOf_append (a b : String) :
    segmentsOf (a ++ "/" ++ b) = segmentsOf a ++ segmentsOf b := by
  have h : (a ++ "/" ++ b).toList.map slash =
      a.toList.map slash ++ '/' :: b.toList.map slash := by
    simp [slash]
  unfold segmentsOf
  rw [h, List.splitOn_append_cons_self, List.map_append]

theorem map_slash {cs : List Char} (h : '\\' ∉ cs) : cs.map slash = cs := by
  refine (List.map_congr_left fun c hc => ?_).trans (List.map_id cs)
  have : c ≠ '\\' := fun e => h (e ▸ hc)
  simp [slash, this]

theorem segmentsOf_single {s : String} (hs : '/' ∉ s.toList) (hb : '\\' ∉ s.toList) :
    segmentsOf s = [s] := by
  unfold segmentsOf
  rw [map_slash hb, List.splitOn_eq_singleton hs]
  simp

theorem segmentsOf_name {s : String} (h : IsName s) : segmentsOf s = [s] :=
  segmentsOf_single h.no_slash h.no_backslash

/-- Joined segments are read back. -/
theorem segmentsOf_intercalate {segments : List String} (hne : segments ≠ [])
    (h : ∀ s ∈ segments, '/' ∉ s.toList ∧ '\\' ∉ s.toList) :
    segmentsOf ("/".intercalate segments) = segments := by
  induction segments with
  | nil => exact absurd rfl hne
  | cons s rest ih =>
    obtain ⟨hs, hb⟩ := h s List.mem_cons_self
    cases rest with
    | nil => rw [String.intercalate_singleton, segmentsOf_single hs hb]
    | cons t rest =>
      rw [String.intercalate_cons_cons, segmentsOf_append, segmentsOf_single hs hb,
        ih (by simp) fun u hu => h u (List.mem_cons_of_mem _ hu)]
      rfl

theorem mem_segmentsOf {s text : String} (h : s ∈ segmentsOf text) :
    '/' ∉ s.toList ∧ '\\' ∉ s.toList := by
  obtain ⟨cs, hcs, rfl⟩ := List.mem_map.mp h
  obtain ⟨h1, h2⟩ := Text.mem_splitOn hcs
  rw [String.toList_ofList]
  refine ⟨h1, fun hb => ?_⟩
  obtain ⟨c, _, hc⟩ := List.mem_map.mp (h2 hb)
  unfold slash at hc
  split at hc
  · cases hc
  · contradiction

/-! ## Reading -/

/-- Where the walk of a text begins. -/
def origin (text : String) : Path := if isRooted text then ⟨.root, []⟩ else here

theorem ofText_eq_walk (text : String) : ofText text = (origin text).walk (segmentsOf text) := rfl

theorem isNormal_origin (text : String) : (origin text).IsNormal := by
  unfold origin
  split <;> intro s hs <;> simp [here] at hs

theorem isNormal_ofText (text : String) : (ofText text).IsNormal :=
  isNormal_walk (isNormal_origin text) fun _ hs => mem_segmentsOf hs

theorem start_ofText {text : String} (h : isRooted text = true) : (ofText text).start = .root :=
  start_walk_root (by rw [if_pos h]) _

theorem isRooted_append {a : String} (ha : a ≠ "") (b : String) :
    isRooted (a ++ b) = isRooted a := by
  unfold isRooted
  rw [String.toList_append]
  cases h : a.toList with
  | nil => exact absurd (String.toList_eq_nil_iff.mp h) ha
  | cons c cs => rfl

theorem ne_empty_of_isRooted {text : String} (h : isRooted text = true) : text ≠ "" := by
  rintro rfl
  simp [isRooted] at h

/-- The walk of a longer text goes on where the walk of its beginning ends. -/
theorem ofText_append {a : String} (ha : a ≠ "") (b : String) :
    ofText (a ++ "/" ++ b) = (ofText a).walk (segmentsOf b) := by
  have h : origin (a ++ "/" ++ b) = origin a := by
    unfold origin
    rw [String.append_assoc, isRooted_append ha]
  rw [ofText_eq_walk, h, segmentsOf_append, walk_append, ← ofText_eq_walk]

/-! ## Writing -/

theorem mem_segments {p : Path} {s : String} (h : s ∈ p.segments) : s = ".." ∨ s ∈ p.names := by
  refine (List.mem_append.mp h).imp_left fun hs => ?_
  cases hp : p.start with
  | root => simp [hp, Start.dots] at hs
  | above n =>
    rw [hp] at hs
    exact List.eq_of_mem_replicate hs

theorem segments_no_slash {p : Path} (h : p.IsNormal) :
    ∀ s ∈ p.segments, '/' ∉ s.toList ∧ '\\' ∉ s.toList := by
  intro s hs
  rcases mem_segments hs with rfl | hs
  · decide
  · exact ⟨(h s hs).no_slash, (h s hs).no_backslash⟩

theorem isRooted_of_no_slash {s : String} (hs : '/' ∉ s.toList) (hb : '\\' ∉ s.toList) :
    isRooted s = false := by
  unfold isRooted
  cases h : s.toList with
  | nil => rfl
  | cons c cs =>
    have h1 : c ≠ '/' := fun e => hs (by simp [h, e])
    have h2 : c ≠ '\\' := fun e => hb (by simp [h, e])
    simp [slash, h1, h2]

theorem isRooted_intercalate {s : String} (rest : List String) (hne : s ≠ "")
    (hs : '/' ∉ s.toList) (hb : '\\' ∉ s.toList) :
    isRooted ("/".intercalate (s :: rest)) = false := by
  cases rest with
  | nil => rw [String.intercalate_singleton, isRooted_of_no_slash hs hb]
  | cons t rest =>
    rw [String.intercalate_cons_cons, String.append_assoc, isRooted_append hne,
      isRooted_of_no_slash hs hb]

theorem isRooted_toText {p : Path} (h : p.start = .root) : isRooted p.toText = true := by
  unfold toText
  rw [h]
  simp [isRooted, slash]

theorem ofText_toText_root {names : List String} (h : ∀ s ∈ names, IsName s) :
    ofText (toText ⟨.root, names⟩) = ⟨.root, names⟩ := by
  have ho : origin (toText ⟨.root, names⟩) = ⟨.root, []⟩ := if_pos (isRooted_toText rfl)
  have ht : toText ⟨.root, names⟩ = "" ++ "/" ++ "/".intercalate names := by
    simp [toText, segments, Start.dots]
  rw [ofText_eq_walk, ho, ht, segmentsOf_append, walk_append]
  cases names with
  | nil => decide
  | cons s rest =>
    rw [segmentsOf_intercalate (by simp) fun t ht => ⟨(h t ht).no_slash, (h t ht).no_backslash⟩,
      show (walk ⟨.root, []⟩ (segmentsOf "")) = ⟨.root, []⟩ by decide, walk_names h]
    rfl

theorem ofText_toText_above {n : Nat} {names : List String} (h : ∀ s ∈ names, IsName s) :
    ofText (toText ⟨.above n, names⟩) = ⟨.above n, names⟩ := by
  have hns := segments_no_slash (p := ⟨.above n, names⟩) h
  have hwalk : here.walk (segments ⟨.above n, names⟩) = ⟨.above n, names⟩ := by
    show here.walk (List.replicate n ".." ++ names) = _
    rw [walk_append, show here = ⟨.above 0, []⟩ from rfl, walk_dots_above, walk_names h]
    simp
  cases hs : segments ⟨.above n, names⟩ with
  | nil =>
    rw [hs, walk_nil] at hwalk
    rw [← hwalk]
    decide
  | cons s rest =>
    have hm : s ∈ segments ⟨.above n, names⟩ := hs ▸ List.mem_cons_self
    have hne : s ≠ "" := by
      rcases List.mem_append.mp hm with hm | hm
      · rw [List.eq_of_mem_replicate hm]
        decide
      · exact (h s hm).ne_empty
    have ht : toText ⟨.above n, names⟩ = "/".intercalate (s :: rest) := by
      unfold toText
      simp only [hs]
    have ho : origin (toText ⟨.above n, names⟩) = here := by
      rw [ht]
      exact if_neg (by rw [isRooted_intercalate rest hne (hns s hm).1 (hns s hm).2]; simp)
    rw [ofText_eq_walk, ho, ht, segmentsOf_intercalate (by simp) (hs ▸ hns), ← hs, hwalk]

/-- A written path is read back. -/
theorem ofText_toText {p : Path} (h : p.IsNormal) : ofText p.toText = p := by
  obtain ⟨start, names⟩ := p
  cases start with
  | root => exact ofText_toText_root h
  | above n => exact ofText_toText_above h

theorem toText_ne_empty {p : Path} (h : p.IsNormal) : p.toText ≠ "" := by
  intro he
  have hhere : p = ofText "" := by rw [← he, ofText_toText h]
  rw [hhere] at he
  exact absurd he (by decide)

theorem ofText_normalize (text : String) : ofText (normalize text) = ofText text :=
  ofText_toText (isNormal_ofText text)

theorem normalize_toText {p : Path} (h : p.IsNormal) : normalize p.toText = p.toText := by
  unfold normalize
  rw [ofText_toText h]

theorem normalize_normalize (text : String) : normalize (normalize text) = normalize text :=
  normalize_toText (isNormal_ofText text)

/-- Two texts have one normal form exactly if their walks end alike. -/
theorem normalize_eq_iff {text other : String} :
    normalize text = normalize other ↔ ofText text = ofText other := by
  constructor
  · intro h
    rw [← ofText_normalize text, h, ofText_normalize]
  · exact congrArg toText

/-! ## Joined paths -/

theorem append_ne_empty {a : String} (ha : a ≠ "") (b : String) : a ++ b ≠ "" := by
  simp [ha]

theorem ofText_foldl_append {base : String} (hb : base ≠ "") (further : List String) :
    ofText (further.foldl (fun text segment => text ++ "/" ++ segment) base) =
      (ofText base).walk (further.flatMap segmentsOf) := by
  induction further generalizing base with
  | nil => rfl
  | cons s rest ih =>
    rw [List.foldl_cons, ih (append_ne_empty (append_ne_empty hb _) _), ofText_append hb,
      List.flatMap_cons, walk_append]

theorem resolve_of_isRooted (base : String) {path : String} (h : isRooted path = true) :
    resolve base path = normalize path :=
  if_pos h

/-- A path that is not rooted goes on where its base ends. -/
theorem resolve_eq_toText {base path : String} (hb : base ≠ "") (hp : isRooted path = false) :
    resolve base path = ((ofText base).walk (segmentsOf path)).toText := by
  rw [resolve, if_neg (by simp [hp]), normalize, ofText_append hb]

theorem ofText_resolve {base path : String} (hb : base ≠ "") (hp : isRooted path = false) :
    ofText (resolve base path) = (ofText base).walk (segmentsOf path) := by
  rw [resolve_eq_toText hb hp]
  exact ofText_toText (isNormal_walk (isNormal_ofText base) fun _ hs => mem_segmentsOf hs)

/-- Where a joined path leads. -/
theorem ofText_join {base : String} (hb : base ≠ "") (further : List String) :
    ofText (join base further) = (ofText base).walk (further.flatMap segmentsOf) := by
  unfold join
  rw [ofText_normalize, ofText_foldl_append hb]

theorem join_eq_toText {base : String} (hb : base ≠ "") (further : List String) :
    join base further = ((ofText base).walk (further.flatMap segmentsOf)).toText := by
  unfold join normalize
  rw [ofText_foldl_append hb]

/-- Joining goes on where joining ended. -/
theorem join_join {base : String} (hb : base ≠ "") (first further : List String) :
    join (join base first) further = join base (first ++ further) := by
  have hjoin : join base first ≠ "" := toText_ne_empty (isNormal_ofText _)
  rw [join_eq_toText hjoin, join_eq_toText hb (first ++ further), ofText_join hb,
    List.flatMap_append, walk_append]

theorem parent_concat (start : Start) (names : List String) (s : String) :
    parent ⟨start, names ++ [s]⟩ = ⟨start, names⟩ := by
  cases names with
  | nil => rfl
  | cons t rest =>
    show (⟨start, ((t :: rest) ++ [s]).dropLast⟩ : Path) = _
    rw [List.dropLast_concat]

theorem last_concat (start : Start) (names : List String) (s : String) :
    last ⟨start, names ++ [s]⟩ = s := by
  simp [last]

theorem isNormal_parent {p : Path} (h : p.IsNormal) : p.parent.IsNormal := by
  unfold parent
  split
  · rename_i hn
    intro s hs
    simp [hn] at hs
  · exact fun s hs => h s (List.dropLast_subset _ hs)

theorem ofText_directory (text : String) : ofText (directory text) = (ofText text).parent :=
  ofText_toText (isNormal_parent (isNormal_ofText text))

/-! ## Absolute paths -/

/-- The normal form of a place seen from the root. -/
structure IsAbsolute (text : String) : Prop where
  root : (ofText text).start = .root
  normal : normalize text = text

theorem isAbsolute_toText {p : Path} (hn : p.IsNormal) (hp : p.start = .root) :
    IsAbsolute p.toText :=
  ⟨by rw [ofText_toText hn, hp], normalize_toText hn⟩

theorem IsAbsolute.toText {text : String} (h : IsAbsolute text) :
    (ofText text).toText = text := h.normal

theorem IsAbsolute.isRooted {text : String} (h : IsAbsolute text) : isRooted text = true := by
  rw [← h.toText]
  exact isRooted_toText h.root

theorem IsAbsolute.ne_empty {text : String} (h : IsAbsolute text) : text ≠ "" :=
  ne_empty_of_isRooted h.isRooted

theorem isAbsolute_normalize {text : String} (h : isRooted text = true) :
    IsAbsolute (normalize text) :=
  isAbsolute_toText (isNormal_ofText text) (start_ofText h)

theorem isAbsolute_resolve {base : String} (h : isRooted base = true) (path : String) :
    IsAbsolute (resolve base path) := by
  unfold resolve
  split
  · rename_i hp
    exact isAbsolute_normalize hp
  · rw [String.append_assoc]
    exact isAbsolute_normalize (by rw [isRooted_append (ne_empty_of_isRooted h), h])

theorem IsAbsolute.join {base : String} (h : IsAbsolute base) (further : List String) :
    IsAbsolute (join base further) := by
  rw [join_eq_toText h.ne_empty]
  refine isAbsolute_toText (isNormal_walk (isNormal_ofText base) fun s hs => ?_)
    (start_walk_root h.root _)
  obtain ⟨t, _, hs⟩ := List.mem_flatMap.mp hs
  exact mem_segmentsOf hs

theorem start_parent_root {p : Path} (h : p.start = .root) : p.parent.start = .root := by
  unfold parent
  split <;> simp [h, Start.shorten]

theorem IsAbsolute.directory {text : String} (h : IsAbsolute text) :
    IsAbsolute (directory text) :=
  isAbsolute_toText (isNormal_parent (isNormal_ofText text)) (start_parent_root h.root)

/-- A file directly inside a directory. -/
theorem ofText_join_name {dir name : String} (h : IsAbsolute dir) (hn : IsName name) :
    ofText (join dir [name]) = ⟨(ofText dir).start, (ofText dir).names ++ [name]⟩ := by
  rw [ofText_join h.ne_empty]
  simp [segmentsOf_name hn, step_name _ hn]

theorem directory_join_name {dir name : String} (h : IsAbsolute dir) (hn : IsName name) :
    directory (join dir [name]) = dir := by
  unfold directory
  rw [ofText_join_name h hn, parent_concat, h.toText]

theorem last_join_name {dir name : String} (h : IsAbsolute dir) (hn : IsName name) :
    (ofText (join dir [name])).last = name := by
  rw [ofText_join_name h hn, last_concat]

/-- The path of a file tells its directory and its name. -/
theorem join_name_inj {dir dir' name name' : String} (h : IsAbsolute dir) (h' : IsAbsolute dir')
    (hn : IsName name) (hn' : IsName name') :
    join dir [name] = join dir' [name'] ↔ dir = dir' ∧ name = name' := by
  constructor
  · intro he
    refine ⟨?_, ?_⟩
    · rw [← directory_join_name h hn, he, directory_join_name h' hn']
    · rw [← last_join_name h hn, he, last_join_name h' hn']
  · rintro ⟨rfl, rfl⟩
    rfl

theorem IsAbsolute.join_join {base : String} (h : IsAbsolute base) (first further : List String) :
    Path.join (Path.join base first) further = Path.join base (first ++ further) :=
  Path.join_join h.ne_empty first further

end ElementWrappers.Path

import Mathlib
import ElementWrappers.Naming
import ElementWrappers.Proofs.TextLines
import ElementWrappers.Wrapper.Support

/-!
# Reading generated sources

What a reader finds in a generated source: the lines between two others, and the
texts that stand between single quotes. Both find again what was written between
known parts, if it does not have the marks that they look for.
-/

namespace ElementWrappers.Text

/-! ## Sections -/

section Sections

variable {first last : String} {pre mid post : List String}

/-- The lines behind `first`, up to the next `last`. -/
def between (first last : String) (lines : List String) : List String :=
  ((lines.dropWhile fun line => line != first).tail).takeWhile fun line => line != last

theorem between_append (hpre : first ∉ pre) (hmid : last ∉ mid) :
    between first last (pre ++ first :: (mid ++ last :: post)) = mid := by
  have hskip : ∀ line ∈ pre, (line != first) = true := fun line hl =>
    bne_iff_ne.mpr fun he => hpre (he ▸ hl)
  have htake : ∀ line ∈ mid, (line != last) = true := fun line hl =>
    bne_iff_ne.mpr fun he => hmid (he ▸ hl)
  have hend : (first :: (mid ++ last :: post)).dropWhile (fun line => line != first) =
      first :: (mid ++ last :: post) := List.dropWhile_cons_of_neg (by simp)
  have hlast : (last :: post).takeWhile (fun line => line != last) = [] :=
    List.takeWhile_cons_of_neg (by simp)
  rw [between, List.dropWhile_append_of_pos hskip, hend, List.tail_cons,
    List.takeWhile_append_of_pos htake, hlast, List.append_nil]

/-- The last lines, behind the last one that is not as asked. -/
theorem rtakeWhile_append {p : String → Bool} {line : String} (hline : p line = false)
    (hpost : ∀ l ∈ post, p l = true) : (pre ++ line :: post).rtakeWhile p = post := by
  have hrev : ∀ l ∈ post.reverse, p l = true := fun l hl => hpost l (List.mem_reverse.mp hl)
  rw [List.rtakeWhile, List.reverse_append, List.reverse_cons, List.append_assoc,
    List.takeWhile_append_of_pos hrev, List.singleton_append,
    List.takeWhile_cons_of_neg (by simp [hline]), List.append_nil, List.reverse_reverse]

theorem rdropWhile_append {p : String → Bool} {line : String} (hline : p line = false)
    (hpost : ∀ l ∈ post, p l = true) : (pre ++ line :: post).rdropWhile p = pre ++ [line] := by
  have hrev : ∀ l ∈ post.reverse, p l = true := fun l hl => hpost l (List.mem_reverse.mp hl)
  rw [List.rdropWhile, List.reverse_append, List.reverse_cons, List.append_assoc,
    List.dropWhile_append_of_pos hrev, List.singleton_append,
    List.dropWhile_cons_of_neg (by simp [hline]), List.reverse_cons, List.reverse_reverse]

theorem linesOf_sourceText (parts : List String) :
    linesOf (sourceText parts) = parts.flatMap linesOf ++ [""] := by
  induction parts with
  | nil => rfl
  | cons part rest ih =>
    have hsplit : sourceText (part :: rest) = part ++ "\n" ++ sourceText rest := by
      simp [sourceText, String.join_cons]
    rw [hsplit, linesOf_append, ih, List.flatMap_cons, List.append_assoc]

theorem intercalate_linesOf (text : String) : "\n".intercalate (linesOf text) = text := by
  apply String.toList_injective
  rw [String.toList_intercalate, linesOf, List.map_map]
  simp only [Function.comp_def, String.toList_ofList, List.map_id']
  exact List.intercalate_splitOn '\n'

/-- A line is the first one, and the text begins with it, or it has the mark. -/
theorem prefix_or_marked {mark text line : String} (hm : '\n' ∉ mark.toList)
    (h : Marked mark.toList text.toList) (hl : line ∈ linesOf text) :
    line.toList <+: text.toList ∨ mark.toList <+: line.toList := by
  have htail := (marked_iff_linesOf hm).mp h
  have htext := intercalate_linesOf text
  cases hlines : linesOf text with
  | nil =>
    rw [hlines] at hl
    cases hl
  | cons first more =>
    rw [hlines] at hl htail htext
    rcases List.mem_cons.mp hl with rfl | hl
    · refine .inl ?_
      rw [← htext]
      cases more with
      | nil => rw [String.intercalate_singleton]
      | cons next more =>
        rw [String.intercalate_cons_cons, String.append_assoc, String.toList_append]
        exact List.prefix_append _ _
    · exact .inr (htail line hl)

end Sections

/-! ## Options -/

section Options

variable {mark more : String}

/-- Whether a line begins with a mark. -/
def startsWith (mark line : String) : Bool := mark.toList.isPrefixOf line.toList

theorem startsWith_iff {line : String} :
    startsWith mark line = true ↔ mark.toList <+: line.toList := List.isPrefixOf_iff_prefix

/-- A line that begins otherwise does not begin with the mark. -/
theorem startsWith_other {known : String} (hm : startsWith mark known = false)
    (hk : startsWith known mark = false) (rest : String) :
    startsWith mark (known ++ rest) = false := by
  rw [Bool.eq_false_iff, ne_eq, startsWith_iff] at hm hk ⊢
  rw [String.toList_append]
  exact fun hp => (List.prefix_or_prefix_of_prefix hp (List.prefix_append _ _)).elim hm hk

theorem startsWith_mono {line : String} (h : startsWith mark line = true) (rest : String) :
    startsWith mark (line ++ rest) = true := by
  rw [startsWith_iff] at h ⊢
  rw [String.toList_append]
  exact h.trans (List.prefix_append _ _)

/-- What is added to a text without a separator goes on with its last piece. -/
theorem exists_splitOn_append {c : Char} {more : List Char} (h : c ∉ more) (text : List Char) :
    ∃ front last, text.splitOn c = front ++ [last] ∧
      (text ++ more).splitOn c = front ++ [last ++ more] := by
  induction text with
  | nil => exact ⟨[], [], rfl, List.splitOn_eq_singleton h⟩
  | cons d rest ih =>
    obtain ⟨front, last, hf, hm⟩ := ih
    rw [List.cons_append, List.splitOn_cons_eq_if_modifyHead, List.splitOn_cons_eq_if_modifyHead,
      hf, hm]
    split
    · exact ⟨[] :: front, last, rfl, rfl⟩
    · cases front with
      | nil => exact ⟨[], d :: last, rfl, rfl⟩
      | cons first front => exact ⟨(d :: first) :: front, last, rfl, rfl⟩

theorem exists_linesOf_append (h : '\n' ∉ more.toList) (text : String) : ∃ front last,
    linesOf text = front ++ [last] ∧ linesOf (text ++ more) = front ++ [last ++ more] := by
  obtain ⟨front, last, hf, hm⟩ := exists_splitOn_append h text.toList
  refine ⟨front.map String.ofList, String.ofList last, ?_, ?_⟩
  · rw [linesOf, hf, List.map_append, List.map_singleton]
  · have hlast : String.ofList (last ++ more.toList) = String.ofList last ++ more :=
      String.toList_injective (by simp)
    rw [linesOf, String.toList_append, hm, List.map_append, List.map_singleton, hlast]

/-- What is put before a text without a separator goes on with its first piece. -/
theorem exists_splitOn_front {c : Char} {front : List Char} (h : c ∉ front) (text : List Char) :
    ∃ first rest, (front ++ text).splitOn c = (front ++ first) :: rest := by
  induction front with
  | nil => exact List.exists_cons_of_ne_nil (List.splitOn_ne_nil c text)
  | cons d front ih =>
    obtain ⟨hd, hf⟩ := List.ne_and_not_mem_of_not_mem_cons h
    obtain ⟨first, rest, hs⟩ := ih hf
    refine ⟨first, rest, ?_⟩
    rw [List.cons_append, List.splitOn_cons_eq_if_modifyHead, hs, if_neg (by simpa using hd.symm)]
    rfl

theorem exists_linesOf_front (h : '\n' ∉ mark.toList) (text : String) : ∃ first rest,
    linesOf (mark ++ text) = first :: rest ∧ startsWith mark first = true := by
  obtain ⟨first, rest, hs⟩ := exists_splitOn_front h text.toList
  refine ⟨String.ofList (mark.toList ++ first), rest.map String.ofList, ?_, ?_⟩
  · rw [linesOf, String.toList_append, hs, List.map_cons]
  · rw [startsWith_iff, String.toList_ofList]
    exact List.prefix_append _ _

/-- All options but the last have a comma behind them. -/
theorem linesOf_options_cons (part next : String) (rest : List String) :
    linesOf (",\n".intercalate (part :: next :: rest)) =
      linesOf (part ++ ",") ++ linesOf (",\n".intercalate (next :: rest)) := by
  have hcut : ",\n" = "," ++ "\n" := by simp
  rw [String.intercalate_cons_cons]
  nth_rewrite 1 [hcut]
  rw [← String.append_assoc, linesOf_append]

/-- What holds of the lines of all options holds of the lines of their list, if a comma
behind a line does not matter. -/
theorem forall_linesOf_options {P : String → Prop} (hP : ∀ line, P line → P (line ++ ","))
    {parts : List String} (hne : parts ≠ []) (h : ∀ part ∈ parts, ∀ line ∈ linesOf part, P line) :
    ∀ line ∈ linesOf (",\n".intercalate parts), P line := by
  induction parts with
  | nil => exact absurd rfl hne
  | cons part rest ih =>
    obtain ⟨hpart, hrest⟩ := List.forall_mem_cons.mp h
    cases rest with
    | nil => rwa [String.intercalate_singleton]
    | cons next rest =>
      have hnewline : '\n' ∉ ",".toList := by decide_cbv
      obtain ⟨front, last, hf, hcomma⟩ := exists_linesOf_append hnewline part
      rw [hf, List.forall_mem_append, List.forall_mem_singleton] at hpart
      rw [linesOf_options_cons, hcomma, List.forall_mem_append, List.forall_mem_append,
        List.forall_mem_singleton]
      exact ⟨⟨hpart.1, hP _ hpart.2⟩, ih (List.cons_ne_nil _ _) hrest⟩

end Options

/-! ## Quotes -/

section Quotes

theorem splitOn_quoted {gap name : List Char} (hg : '\'' ∉ gap) (hn : '\'' ∉ name)
    (rest : List Char) :
    (gap ++ '\'' :: (name ++ '\'' :: rest)).splitOn '\'' = gap :: name :: rest.splitOn '\'' := by
  rw [List.splitOn_append_cons_self, List.splitOn_append_cons_self, List.splitOn_eq_singleton hg,
    List.splitOn_eq_singleton hn]
  rfl

/-- Every second piece, if there is one behind it. -/
def everySecond : List (List Char) → List (List Char)
  | _ :: part :: next :: rest => part :: everySecond (next :: rest)
  | _ => []

/-- The parts of a text that stand between quotes. -/
def quotedParts (text : String) : List String :=
  (everySecond (text.toList.splitOn '\'')).map String.ofList

/-- The last piece does not matter. -/
theorem everySecond_concat (pieces : List (List Char)) (last last' : List Char) :
    everySecond (pieces ++ [last]) = everySecond (pieces ++ [last']) := by
  induction pieces using List.twoStepInduction with
  | nil | singleton _ => rfl
  | cons_cons first part rest ih =>
    obtain ⟨next, more, hm⟩ := List.exists_cons_of_ne_nil (List.concat_ne_nil last rest)
    obtain ⟨next', more', hm'⟩ := List.exists_cons_of_ne_nil (List.concat_ne_nil last' rest)
    rw [hm, hm'] at ih
    rw [List.cons_append, List.cons_append, List.cons_append, List.cons_append, hm, hm',
      everySecond, everySecond, ih]

theorem quotedParts_append {text more : String} (h : '\'' ∉ more.toList) :
    quotedParts (text ++ more) = quotedParts text := by
  obtain ⟨front, last, hf, hm⟩ := exists_splitOn_append h text.toList
  rw [quotedParts, quotedParts, String.toList_append, hf, hm, everySecond_concat front _ last]

/-- The quoted parts of the lines that begin with a mark. -/
def listed (mark : String) (lines : List String) : List String :=
  (lines.filter (startsWith mark)).flatMap quotedParts

section Listed

variable {mark : String}

theorem listed_append (lines more : List String) :
    listed mark (lines ++ more) = listed mark lines ++ listed mark more := by
  rw [listed, List.filter_append, List.flatMap_append]
  rfl

theorem listed_eq_nil {lines : List String} (h : ∀ line ∈ lines, startsWith mark line = false) :
    listed mark lines = [] := by
  rw [listed, List.filter_eq_nil_iff.mpr fun line hl => by simp [h line hl]]
  rfl

theorem listed_singleton {line : String} (h : startsWith mark line = true) :
    listed mark [line] = quotedParts line := by
  simp [listed, h]

/-- A comma behind a line does not matter to a mark that does not end in one. -/
theorem listed_comma (hm : mark.toList.getLast? ≠ some ',') (line : String) :
    listed mark [line ++ ","] = listed mark [line] := by
  have hcomma : '\'' ∉ ",".toList := by decide_cbv
  have hstarts : startsWith mark (line ++ ",") = startsWith mark line := by
    have hlast : (line ++ ",").toList = line.toList ++ [','] := by simp
    rw [Bool.eq_iff_iff, startsWith_iff, startsWith_iff, hlast, List.prefix_concat_iff]
    refine or_iff_right fun he => hm ?_
    rw [he, List.getLast?_concat]
  simp only [listed, List.filter_singleton, hstarts]
  cases startsWith mark line with
  | true => simp [quotedParts_append hcomma]
  | false => rfl

/-- The options of a list are read one by one. -/
theorem listed_options (hm : mark.toList.getLast? ≠ some ',') {parts : List String}
    (hne : parts ≠ []) : listed mark (linesOf (",\n".intercalate parts)) =
      parts.flatMap fun part => listed mark (linesOf part) := by
  induction parts with
  | nil => exact absurd rfl hne
  | cons part rest ih =>
    cases rest with
    | nil => simp
    | cons next rest =>
      have hnewline : '\n' ∉ ",".toList := by decide_cbv
      obtain ⟨front, last, hf, hcomma⟩ := exists_linesOf_append hnewline part
      rw [linesOf_options_cons, listed_append, ih (List.cons_ne_nil _ _), hcomma, listed_append,
        listed_comma hm, ← listed_append, ← hf]
      rfl

end Listed

/-- A text whose quotes are closed around the given parts. -/
inductive Quoting : String → List String → Prop
  | bare {text : String} (h : '\'' ∉ text.toList) : Quoting text []
  | quoted {name : String} (h : '\'' ∉ name.toList) : Quoting (Naming.quoted name) [name]
  | append {a b : String} {ms ns : List String} (ha : Quoting a ms) (hb : Quoting b ns) :
    Quoting (a ++ b) (ms ++ ns)

namespace Quoting

variable {text separator : String} {names : List String}

/-- Reading goes on behind the text as it does behind a text without quotes. -/
theorem everySecond_eq (h : Quoting text names) {gap : List Char} (hg : '\'' ∉ gap)
    (rest : List Char) : ∃ gap' : List Char, '\'' ∉ gap' ∧
      everySecond ((gap ++ (text.toList ++ rest)).splitOn '\'') =
        names.map String.toList ++ everySecond ((gap' ++ rest).splitOn '\'') := by
  induction h generalizing gap rest with
  | @bare text h =>
    exact ⟨gap ++ text.toList, List.not_mem_append hg h, by simp⟩
  | @quoted name h =>
    refine ⟨[], List.not_mem_nil, ?_⟩
    have htext : (Naming.quoted name).toList ++ rest = '\'' :: (name.toList ++ '\'' :: rest) := by
      simp [Naming.quoted]
    obtain ⟨next, more, hm⟩ := List.exists_cons_of_ne_nil (List.splitOn_ne_nil '\'' rest)
    rw [htext, splitOn_quoted hg h, List.nil_append, hm]
    rfl
  | @append a b ms ns ha hb iha ihb =>
    obtain ⟨gap₁, hg₁, he₁⟩ := iha hg (b.toList ++ rest)
    obtain ⟨gap₂, hg₂, he₂⟩ := ihb hg₁ rest
    refine ⟨gap₂, hg₂, ?_⟩
    rw [String.toList_append, List.append_assoc, he₁, he₂, List.map_append, List.append_assoc]

theorem quotedParts_eq (h : Quoting text names) : quotedParts text = names := by
  have hempty : '\'' ∉ ([] : List Char) := List.not_mem_nil
  obtain ⟨gap, hg, he⟩ := h.everySecond_eq hempty []
  rw [List.append_nil, List.append_nil, List.nil_append, List.splitOn_eq_singleton hg] at he
  rw [quotedParts, he]
  simp [everySecond]

theorem intercalate {α : Type} (hs : Quoting separator []) {text name : α → String}
    {items : List α} (h : ∀ i ∈ items, Quoting (text i) [name i]) :
    Quoting (separator.intercalate (items.map text)) (items.map name) := by
  induction items with
  | nil => exact .bare (by simp)
  | cons first rest ih =>
    obtain ⟨hfirst, hrest⟩ := List.forall_mem_cons.mp h
    cases rest with
    | nil => simpa using hfirst
    | cons next rest => simpa using (hfirst.append hs).append (ih hrest)

theorem quotedList {names : List String} (h : ∀ name ∈ names, '\'' ∉ name.toList) :
    Quoting (Naming.quotedList names) names := by
  have hseparator : Quoting ", " [] := .bare (by decide_cbv)
  have hlist : Quoting (Naming.quotedList names) (names.map id) :=
    intercalate hseparator fun name hn => .quoted (h name hn)
  rwa [List.map_id] at hlist

end Quoting

/-- A name that can stand in a list of quoted names on one line. -/
structure IsListable (name : String) : Prop where
  quote : '\'' ∉ name.toList
  newline : '\n' ∉ name.toList

theorem isListable_iff {name : String} :
    IsListable name ↔ '\'' ∉ name.toList ∧ '\n' ∉ name.toList :=
  ⟨fun ⟨hq, hn⟩ => ⟨hq, hn⟩, fun ⟨hq, hn⟩ => ⟨hq, hn⟩⟩

instance (name : String) : Decidable (IsListable name) := decidable_of_iff' _ isListable_iff

theorem newline_not_mem_quotedList {names : List String} (h : ∀ name ∈ names, IsListable name) :
    '\n' ∉ (Naming.quotedList names).toList := by
  refine intercalate_of_forall (P := fun text => '\n' ∉ text) List.not_mem_nil
    (fun hx hy => List.not_mem_append hx hy) (by decide_cbv) (List.forall_mem_map.mpr ?_)
  exact fun name hn => by simp [Naming.quoted, (h name hn).newline]

section Lines

variable {mark known body rest : String} {names : List String}

/-- A line of a list is read as its quoted parts. -/
theorem listed_line (h : Quoting body names) (hb : '\n' ∉ body.toList) (hm : IsListable mark)
    (hr : IsListable rest) : listed mark (linesOf (mark ++ body ++ rest)) = names := by
  have hline : '\n' ∉ (mark ++ body ++ rest).toList := by
    simp [hm.newline, hb, hr.newline]
  have hstarts : startsWith mark (mark ++ body ++ rest) = true := by
    rw [String.append_assoc]
    exact startsWith_mono (startsWith_iff.mpr (List.prefix_refl _)) _
  have hquoting := ((Quoting.bare hm.quote).append h).append (.bare hr.quote)
  rw [linesOf_single hline, listed_singleton hstarts, hquoting.quotedParts_eq]
  simp

/-- A line that begins otherwise is passed over. -/
theorem listed_other (hm : startsWith mark known = false) (hk : startsWith known mark = false)
    (h : '\n' ∉ (known ++ rest).toList) : listed mark (linesOf (known ++ rest)) = [] := by
  rw [linesOf_single h]
  refine listed_eq_nil fun line hline => ?_
  rw [List.mem_singleton.mp hline, startsWith_other hm hk]

end Lines

end Quotes

end ElementWrappers.Text

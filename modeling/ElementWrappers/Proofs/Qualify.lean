import ElementWrappers.Proofs.MemberNames
import ElementWrappers.Proofs.TypeArms
import ElementWrappers.Proofs.TypeWords

/-!
# Qualifying printed types

`qualify` renames names where the shape of a type gives them away, and misses
some. Whatever it misses, renaming all words afterwards gives the same text as
renaming the leading names of the tree: `Ty.isQualified`.
-/

namespace ElementWrappers.TypeExpr

/-- A text of a shape with its parts renamed by `inner`. -/
def Shape.renamed (scope : Scope) (text : List Char) (inner : List Char → List Char) :
    Shape → List Char
  | .fixed => text
  | .members pieces => joinMembers false (pieces.map fun p => (inner p.text, p.after))
  | .object => renameMembers scope.qualifyName {} text
  | .array item => inner item ++ ['[', ']']
  | .group part => '(' :: (inner part ++ [')'])
  | .tuple items => enclosed '[' ']' (items.map inner)
  | .generic base arguments => inner base ++ enclosed '<' '>' (arguments.map inner)
  | .path first rest => scope.qualifyName first ++ rest
  | .name => scope.qualifyName text

section Qualify

variable {scope : Scope} {x before : List Char} {rest : List (Char × List Char)}

theorem qualify_eq (scope : Scope) (text : List Char) : qualify scope text =
    (Shape.of (Text.trim text)).renamed scope (Text.trim text) (qualify scope) := by
  rw [qualify.eq_def]
  split
  all_goals
    rename_i h
    simp only [h, Shape.renamed]
  · simp
  · simp
  · simp [enclosed, commas]
  · simp [enclosed, commas]

theorem Spaced.qualify_eq (h : Spaced x) :
    qualify scope x = (Shape.of x).renamed scope x (qualify scope) := by
  rw [TypeExpr.qualify_eq, h.isTrimmed.trim_eq]

/-- Blanks around a type do not matter. -/
theorem Spaced.qualify_padded (h : Spaced x) (scope : Scope) {after : List Char}
    (hb : ∀ c ∈ before, Text.isBlank c = true) (ha : ∀ c ∈ after, Text.isBlank c = true) :
    qualify scope (before ++ (x ++ after)) = qualify scope x := by
  rw [TypeExpr.qualify_eq, h.isTrimmed.trim_padded hb ha, h.qualify_eq]

theorem qualify_nil : qualify scope [] = [] := by
  rw [qualify_eq]
  rfl

/-! ## Lists and unions -/

theorem map_qualify_pieces (scope : Scope) (hx : Spaced x) (hrest : ∀ r ∈ rest, Spaced r.2)
    (hb : ∀ c ∈ before, Text.isBlank c = true) :
    ((joinedPieces [] (before ++ x) rest).map Piece.text).map (qualify scope) =
      qualify scope x :: rest.map fun r => qualify scope r.2 := by
  induction rest generalizing x before with
  | nil =>
    have h := hx.qualify_padded scope hb Text.isBlank_nil
    rw [List.append_nil] at h
    simp [joinedPieces, h]
  | cons r rest ih =>
    have h := hx.qualify_padded scope hb Text.isBlank_nil
    have hnext := ih (hrest r List.mem_cons_self) (fun q hq => hrest q (List.mem_cons_of_mem _ hq))
      Text.isBlank_singleton
    rw [List.append_nil] at h
    simp only [joinedPieces, List.append_nil, List.map_cons, h, List.cons.injEq, true_and]
    exact hnext

/-- The items of a printed list are qualified one by one. -/
theorem commas_qualify {xs : List (List Char)} (hs : ∀ y ∈ xs, Spaced y)
    (hn : ∀ y ∈ xs, Nested [','] y) :
    commas ((listItems (commas xs)).map (qualify scope)) = commas (xs.map (qualify scope)) := by
  cases xs with
  | nil =>
    show commas ((listItems []).map (qualify scope)) = []
    simp [listItems, split, splitFrom, qualify_nil, commas]
  | cons x xs =>
    have hrest : ∀ r ∈ xs.map fun y => (',', y), Spaced r.2 := by
      intro r hr
      obtain ⟨y, hy, rfl⟩ := List.mem_map.mp hr
      exact hs y (List.mem_cons_of_mem _ hy)
    have h := map_qualify_pieces scope (hs x List.mem_cons_self) hrest Text.isBlank_nil
    rw [List.nil_append] at h
    rw [listItems_commas hn, h, List.map_map]
    rfl

theorem joinMembers_some (started : Bool) (text : List Char) (mark : Char)
    (rest : List (List Char × Option Char)) (h : started = true ∨ text ≠ []) :
    joinMembers started ((text, some mark) :: rest) =
      text ++ ' ' :: mark :: ' ' :: joinMembers true rest := by
  have hs : (started || !text.isEmpty) = true := by
    rcases h with rfl | h
    · rfl
    · simp [h]
  rw [joinMembers, hs, if_pos rfl]
  simp

/-- The members of a union are qualified one by one. -/
theorem joinMembers_qualify (scope : Scope) {started : Bool} (hx : Spaced x) (hrest : ∀ r ∈ rest, Spaced r.2)
    (hb : ∀ c ∈ before, Text.isBlank c = true) (h : started = true ∨ qualify scope x ≠ []) :
    joinMembers started ((joinedPieces [' '] (before ++ x) rest).map
        fun p => (qualify scope p.text, p.after)) =
      joined [' '] (qualify scope x) (rest.map fun r => (r.1, qualify scope r.2)) := by
  induction rest generalizing x before started with
  | nil =>
    have hq := hx.qualify_padded scope hb Text.isBlank_nil
    rw [List.append_nil] at hq
    simp [joinedPieces, joinMembers, joined, hq]
  | cons r rest ih =>
    have hq := hx.qualify_padded scope hb Text.isBlank_singleton
    have hnext := ih (hrest r List.mem_cons_self)
      (fun q hq => hrest q (List.mem_cons_of_mem _ hq)) Text.isBlank_singleton (.inl rfl)
    rw [joinedPieces, List.map_cons, List.append_assoc, hq, joinMembers_some _ _ _ _ h]
    simp only [List.singleton_append] at hnext
    rw [hnext]
    simp [joined]

end Qualify

/-! ## Types -/

/-- A renaming of the words of a text, as a renaming of names. -/
structure Renaming (scope : Scope) where
  words : List Char → List Char
  names : Name → Name
  qualified : Name → Name
  words_eq : ∀ x : Name, words x.chars = (names x).chars
  qualified_eq : ∀ x : Name, scope.qualifyName x.chars = (qualified x).chars

namespace Ty

variable {scope : Scope}

/-- The leading names of `t` come out the same if they are qualified first, and
the names of parameters stay. -/
structure Fits (r : Renaming scope) (t : Ty) : Prop where
  leading : ∀ x ∈ t.leadingNames, r.names (r.qualified x) = r.names x
  parameters : ∀ x ∈ t.parameterNames, r.names x = x

/-- Qualifying `t` and renaming all words renames its leading names. -/
def IsQualified (r : Renaming scope) (t : Ty) : Prop :=
  (wordReader r.words).Turns false (qualify scope t.print) (t.mapNames r.names).print

section Types

variable {r : Renaming scope} {t : Ty}

theorem qualify_print (scope : Scope) (t : Ty) :
    qualify scope t.print = (Shape.of t.print).renamed scope t.print (qualify scope) :=
  (spaced_print t).qualify_eq

theorem turns_print_of_parameters (h : ∀ x ∈ t.parameterNames, r.names x = x) :
    (wordReader r.words).Turns false t.print (t.mapNames r.names).print :=
  turns_print r.words_eq t fun x hx => by rw [r.words_eq, h x hx]

/-- What has a shape with nothing to rename is left to the words. -/
theorem isQualified_of_fixed (h : ∀ x ∈ t.parameterNames, r.names x = x)
    (hs : Shape.of t.print = .fixed) : IsQualified r t := by
  rw [IsQualified, qualify_print, hs]
  exact turns_print_of_parameters h

theorem IsQualified.ne_nil (h : IsQualified r t) : qualify scope t.print ≠ [] := by
  intro hnil
  rw [IsQualified, hnil] at h
  have he := mapWords_eq_of_turns h
  rw [mapWords_nil] at he
  exact (spaced_print _).ne_nil he.symm

theorem isQualified_path (first : Name) (tail : List Name)
    (h : r.names (r.qualified first) = r.names first) : IsQualified r (path first tail) := by
  have hwords : (wordReader r.words).Turns false
      ((r.qualified first).chars ++ dotted tail) ((r.names first).chars ++ dotted tail) := by
    rw [← h, ← r.words_eq]
    exact turns_path _ tail
  rcases Shape.of_path first tail with hs | hs
  · exact isQualified_of_fixed (t := path first tail) (fun x hx => absurd hx List.not_mem_nil) hs
  · have hq : qualify scope (path first tail).print = (r.qualified first).chars ++ dotted tail := by
      rw [qualify_print, print, hs]
      cases tail with
      | nil =>
        show scope.qualifyName (first.chars ++ []) = _ ++ []
        rw [List.append_nil, List.append_nil, r.qualified_eq]
      | cons x rest =>
        show scope.qualifyName first.chars ++ _ = _
        rw [r.qualified_eq]
    rw [IsQualified, hq]
    exact hwords

theorem isQualified_group (hp : ∀ x ∈ t.parameterNames, r.names x = x) (h : IsQualified r t) :
    IsQualified r (group t) := by
  have hprint : (group t).print = '(' :: (t.print ++ [')']) := by
    simp [print, enclosed, commas]
  rcases Shape.of_group (isNested t).inner with hs | hs
  · exact isQualified_of_fixed hp (by rw [hprint, hs])
  · have hq : qualify scope (group t).print = enclosed '(' ')' [qualify scope t.print] := by
      rw [qualify_print, hprint, hs]
      simp [Shape.renamed, enclosed, commas]
    rw [IsQualified, hq]
    exact .parens h

theorem isQualified_array (hp : ∀ x ∈ t.parameterNames, r.names x = x) (h : IsQualified r t) :
    IsQualified r (array t) := by
  have hitem : ∃ u : Ty, (array t).print = u.print ++ ['[', ']'] ∧
      ((array t).mapNames r.names).print = (u.mapNames r.names).print ++ ['[', ']'] ∧
      Nested separators u.print ∧ IsQualified r u := by
    rw [mapNames, print, print, needsParens_mapNames]
    by_cases hparens : t.needsParens = true
    · rw [if_pos hparens, if_pos hparens]
      exact ⟨group t, rfl, rfl, (isNested (group t)).2 rfl, isQualified_group hp h⟩
    · rw [if_neg hparens, if_neg hparens]
      refine ⟨t, rfl, rfl, (isNested t).2 ?_, h⟩
      cases t <;> first | rfl | exact absurd rfl hparens
  obtain ⟨u, hprint, hmap, hn, hu⟩ := hitem
  rcases Shape.of_array hn with hs | hs
  · exact isQualified_of_fixed hp (by rw [hprint, hs])
  · rw [IsQualified, qualify_print, hprint, hs, hmap]
    exact Reader.Turns.before hu (by decide)

/-- The items of a list, each qualified. -/
theorem turns_commas {ts : List Ty} (h : ∀ t ∈ ts, IsQualified r t) :
    (wordReader r.words).Turns false
      (commas ((listItems (commas (ts.map print))).map (qualify scope)))
      (commas (ts.map fun t => (t.mapNames r.names).print)) := by
  have hs : ∀ y ∈ ts.map print, Spaced y := by
    intro y hy
    obtain ⟨t, -, rfl⟩ := List.mem_map.mp hy
    exact spaced_print t
  have hn : ∀ y ∈ ts.map print, Nested [','] y := by
    intro y hy
    obtain ⟨t, -, rfl⟩ := List.mem_map.mp hy
    exact (isNested t).1
  rw [commas_qualify hs hn, List.map_map]
  exact .commas h

theorem isQualified_tuple {items : List Ty}
    (hp : ∀ x ∈ (tuple items).parameterNames, r.names x = x) (h : ∀ t ∈ items, IsQualified r t) :
    IsQualified r (tuple items) := by
  cases items with
  | nil =>
    have hq : qualify scope (tuple []).print = (tuple []).print := by
      rcases Shape.of_array .nil with hs | hs
      · rw [qualify_print]
        exact congrArg (Shape.renamed scope _ _) hs
      · rw [qualify_print]
        refine (congrArg (Shape.renamed scope _ _) hs).trans ?_
        show qualify scope [] ++ ['[', ']'] = _
        rw [qualify_nil]
        rfl
    rw [IsQualified, hq]
    exact turns_print_of_parameters hp
  | cons t rest =>
    have hprint : (tuple (t :: rest)).print = '[' :: (commas ((t :: rest).map print) ++ [']']) := by
      rw [print, printAll_eq_map]
      rfl
    have hne : commas ((t :: rest).map print) ≠ [] := by
      refine (Spaced.commas (by simp) fun x hx => ?_).ne_nil
      obtain ⟨u, -, rfl⟩ := List.mem_map.mp hx
      exact spaced_print u
    have hn : Nested [] (commas ((t :: rest).map print)) :=
      .commas (forall_map_print fun u _ => isNested u)
    rcases Shape.of_tuple hn hne with hs | hs
    · exact isQualified_of_fixed hp (by rw [hprint, hs])
    · have hopen : separates ['['] = true := by decide
      have hclose : separates [']'] = true := by decide
      rw [IsQualified, qualify_print, hprint, hs, mapNames, print, printAll_eq_map, mapAll_eq_map,
        List.map_map]
      exact .after hopen (fun hf => by cases hf) ((turns_commas h).before hclose)

theorem isQualified_generic {first : Name} {tail : List Name} {arguments : List Ty}
    (hf : r.names (r.qualified first) = r.names first)
    (hp : ∀ x ∈ (generic first tail arguments).parameterNames, r.names x = x)
    (h : ∀ t ∈ arguments, IsQualified r t) : IsQualified r (generic first tail arguments) := by
  have hprint : (generic first tail arguments).print =
      first.chars ++ (dotted tail ++ '<' :: (commas (arguments.map print) ++ ['>'])) := by
    rw [print, printAll_eq_map]
    rfl
  have hn : Nested [] (commas (arguments.map print)) :=
    .commas (forall_map_print fun u _ => isNested u)
  rcases Shape.of_generic first tail hn with hs | hs
  · exact isQualified_of_fixed hp (by rw [hprint, hs])
  · have hopen : separates ['<'] = true := by decide
    have hclose : separates ['>'] = true := by decide
    have hbase : IsQualified r (path first tail) := isQualified_path first tail hf
    rw [IsQualified, qualify_print, hprint, hs, mapNames, print, printAll_eq_map, mapAll_eq_map,
      List.map_map, ← List.append_assoc, ← List.append_assoc]
    exact Reader.Turns.between hbase hopen (fun hf => by cases hf) ((turns_commas h).before hclose)

theorem isQualified_object {members : List (Key × Ty)} (h : Fits r (object members)) :
    IsQualified r (object members) := by
  have hends : (object members).print.head? = some '\x7b' ∧
      (object members).print.getLast? = some '\x7d' := by
    rw [print, printMembers_eq_map]
    cases members with
    | nil => exact ⟨rfl, rfl⟩
    | cons m rest =>
      refine ⟨rfl, ?_⟩
      rw [List.map_cons, braced, List.getLast?_append, List.getLast?_append]
      rfl
  rcases Shape.of_object ((isNested (object members)).2 rfl) hends.1 hends.2 with hs | hs
  · exact isQualified_of_fixed h.parameters hs
  · have hq : qualify scope (object members).print =
        ((object members).mapColons r.qualified false).print := by
      rw [qualify_print, hs]
      exact renameMembers_print r.qualified_eq _
    rw [IsQualified, hq, ← mapNames_mapColons _ h.leading false]
    refine turns_print_of_parameters fun x hx => h.parameters x ?_
    exact (keepsParameters _ false x).mp hx

/-- All arms of `t` are qualified. -/
def ArmsQualified (r : Renaming scope) (t : Ty) : Prop :=
  IsQualified r t.arms.1 ∧ ∀ b ∈ t.arms.2, IsQualified r b.2

theorem ArmsQualified.of_single (h : t.arms = (t, [])) (hq : IsQualified r t) :
    ArmsQualified r t := by
  rw [ArmsQualified, h]
  exact ⟨hq, fun b hb => absurd hb List.not_mem_nil⟩

/-- A type whose arms are qualified is qualified. -/
theorem ArmsQualified.isQualified (hp : ∀ x ∈ t.parameterNames, r.names x = x)
    (h : ArmsQualified r t) : IsQualified r t := by
  have hmap : (t.mapNames r.names).print = joined [' '] (t.arms.1.mapNames r.names).print
      (t.arms.2.map fun b => (b.1.char, (b.2.mapNames r.names).print)) := by
    rw [print_eq_joined, arms_mapNames, printArms, List.map_map]
    rfl
  cases harms : t.arms.2 with
  | nil =>
    have hprint : t.print = t.arms.1.print := by
      rw [print_eq_joined t, harms]
      exact List.append_nil _
    have hmap' : (t.mapNames r.names).print = (t.arms.1.mapNames r.names).print := by
      rw [hmap, harms]
      exact List.append_nil _
    rw [IsQualified, hprint, hmap']
    exact h.1
  | cons b bs =>
    have hshape : Shape.of t.print = .fixed ∨
        Shape.of t.print = .members (joinedPieces [' '] t.arms.1.print (printArms t.arms.2)) := by
      have hlength : 2 ≤ (joinedPieces [' '] t.arms.1.print (printArms t.arms.2)).length := by
        rw [length_joinedPieces, harms]
        simp [printArms]
      unfold Shape.of
      rw [split_print, if_pos hlength]
      split
      · exact .inl rfl
      · exact .inr rfl
    rcases hshape with hs | hs
    · exact isQualified_of_fixed hp hs
    · have hspaced : ∀ q ∈ printArms t.arms.2, Spaced q.2 := by
        intro q hq
        obtain ⟨c, -, rfl⟩ := List.mem_map.mp hq
        exact spaced_print c.2
      have hq := joinMembers_qualify scope (spaced_print t.arms.1) hspaced Text.isBlank_nil
        (show false = true ∨ _ from .inr h.1.ne_nil)
      rw [List.nil_append] at hq
      rw [IsQualified, qualify_print, hs, Shape.renamed, hq, hmap, printArms, List.map_map]
      exact Reader.Turns.joined (u := fun u => qualify scope u.print)
        (v := fun u => (u.mapNames r.names).print) h.2 h.1

theorem armsQualified (r : Renaming scope) (t : Ty) (h : Fits r t) : ArmsQualified r t := by
  induction t using Ty.induct with
  | path first tail =>
    exact .of_single rfl (isQualified_path first tail (h.leading first List.mem_cons_self))
  | generic first tail arguments ih =>
    refine .of_single rfl (isQualified_generic (h.leading first List.mem_cons_self) h.parameters ?_)
    intro t ht
    have hfits : Fits r t := by
      refine ⟨fun x hx => h.leading x (List.mem_cons_of_mem _ ?_), fun x hx => h.parameters x ?_⟩
      · exact mem_leadingNamesAll.mpr ⟨t, ht, hx⟩
      · exact mem_parameterNamesAll.mpr ⟨t, ht, hx⟩
    exact (ih t ht hfits).isQualified hfits.parameters
  | array item ih =>
    have hfits : Fits r item := ⟨h.leading, h.parameters⟩
    exact .of_single rfl
      (isQualified_array hfits.parameters ((ih hfits).isQualified hfits.parameters))
  | tuple items ih =>
    refine .of_single rfl (isQualified_tuple h.parameters ?_)
    intro t ht
    have hfits : Fits r t := by
      refine ⟨fun x hx => h.leading x ?_, fun x hx => h.parameters x ?_⟩
      · exact mem_leadingNamesAll.mpr ⟨t, ht, hx⟩
      · exact mem_parameterNamesAll.mpr ⟨t, ht, hx⟩
    exact (ih t ht hfits).isQualified hfits.parameters
  | group inner ih =>
    have hfits : Fits r inner := ⟨h.leading, h.parameters⟩
    exact .of_single rfl
      (isQualified_group hfits.parameters ((ih hfits).isQualified hfits.parameters))
  | join left mark right ihl ihr =>
    have hl := ihl ⟨fun x hx => h.leading x (List.mem_append_left _ hx),
      fun x hx => h.parameters x (List.mem_append_left _ hx)⟩
    have hr := ihr ⟨fun x hx => h.leading x (List.mem_append_right _ hx),
      fun x hx => h.parameters x (List.mem_append_right _ hx)⟩
    refine ⟨hl.1, fun b hb => ?_⟩
    rcases List.mem_append.mp hb with hb | hb
    · exact hl.2 b hb
    · rcases List.mem_cons.mp hb with rfl | hb
      · exact hr.1
      · exact hr.2 b hb
  | literal label =>
    exact .of_single rfl (isQualified_of_fixed (fun x hx => absurd hx List.not_mem_nil)
      (Shape.of_literal _))
  | object members _ => exact .of_single rfl (isQualified_object h)
  | function parameters result _ ihr =>
    have hr := ihr ⟨fun x hx => h.leading x (List.mem_append_right _ hx),
      fun x hx => h.parameters x (List.mem_append_right _ (List.mem_append_right _ hx))⟩
    -- The first arm is a function type, which is kept whatever its result is.
    refine ⟨isQualified_of_fixed (fun x hx => h.parameters x ?_) ?_, hr.2⟩
    · exact parameterNames_firstArm (function parameters result) hx
    · have hparams : Nested separators (enclosed '(' ')' (parameters.map printMember)) :=
        .enclosed (by decide) (forall_map_printMember fun m _ => isNested m.2)
      rw [arms_function, print, printMembers_eq_map]
      exact Shape.of_function hparams (nested_arms result).1

/-- Qualifying a printed type and renaming all words renames its leading names. -/
theorem isQualified (r : Renaming scope) (t : Ty) (h : Fits r t) : IsQualified r t :=
  (armsQualified r t h).isQualified h.parameters

end Types

end Ty

end ElementWrappers.TypeExpr

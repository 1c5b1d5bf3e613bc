import Mathlib
import ElementWrappers.Json.Printer
import ElementWrappers.Json.Reader
import ElementWrappers.Proofs.EntryLaws

/-!
# Reading what was printed

A value without numbers, printed in a layout of white space, reads back as
itself, as long as it is nested no deeper than the reader goes.
-/

namespace ElementWrappers.Json

/-! ## White space -/

theorem skipSpace_append {gap cs : List Char} (h : ∀ c ∈ gap, isSpace c = true) :
    skipSpace (gap ++ cs) = skipSpace cs := by
  unfold skipSpace
  rw [List.dropWhile_append_of_pos h]

theorem skipSpace_cons {c : Char} (h : isSpace c = false) (cs : List Char) :
    skipSpace (c :: cs) = c :: cs := by
  unfold skipSpace
  rw [List.dropWhile_cons_of_neg (by rw [h]; exact Bool.false_ne_true)]

/-- A layout that puts nothing but white space between values. -/
structure Layout.IsBlank (layout : Layout) : Prop where
  lineBreak : ∀ level, ∀ c ∈ layout.lineBreak level, isSpace c = true
  colon : ∃ gap, layout.colon = ':' :: gap ∧ ∀ c ∈ gap, isSpace c = true

theorem isBlank_indented : Layout.indented.IsBlank := by
  refine ⟨?_, [' '], rfl, ?_⟩
  · intro level c hc
    rcases List.mem_cons.mp hc with rfl | hc
    · rfl
    · rw [List.eq_of_mem_replicate hc]
      rfl
  · intro c hc
    rw [List.mem_singleton.mp hc]
    rfl

theorem isBlank_compact : Layout.compact.IsBlank :=
  ⟨fun _ _ hc => (List.not_mem_nil hc).elim, [], rfl, fun _ hc => (List.not_mem_nil hc).elim⟩

/-! ## Strings -/

theorem hexDigit?_hexDigit : ∀ n < 16, hexDigit? (hexDigit n) = some n := by decide

theorem readString_plain {c : Char} (hq : c ≠ '"') (hb : c ≠ '\\') (hc : ¬ c.toNat < 32)
    {cs text rest : List Char} (h : readString cs = .ok (text, rest)) :
    readString (c :: cs) = .ok (c :: text, rest) := by
  rw [readString.eq_def]
  split
  · contradiction
  · rename_i he
    cases he
    exact absurd rfl hq
  · rename_i he
    cases he
    exact absurd rfl hb
  · rename_i he
    cases he
    rw [if_neg hc, h]

theorem readString_escaped {c : Char} {cs after text rest : List Char}
    (he : readEscape cs = .ok (c, after)) (h : readString after = .ok (text, rest)) :
    readString ('\\' :: cs) = .ok (c :: text, rest) := by
  rw [readString.eq_def]
  simp only
  split
  · rename_i hn
    rw [he] at hn
    cases hn
  · rename_i hn
    rw [he] at hn
    cases hn
    rw [h]

/-- A control character reads back from its code unit. -/
theorem readEscape_control {c : Char} (h : c.toNat < 32) (cs : List Char) :
    readEscape ('u' :: '0' :: '0' :: hexDigit (c.toNat / 16) :: hexDigit (c.toNat % 16) :: cs) =
      .ok (c, cs) := by
  have hh := hexDigit?_hexDigit (c.toNat / 16) (by omega)
  have hl := hexDigit?_hexDigit (c.toNat % 16) (by omega)
  have hz : hexDigit? '0' = some 0 := by decide
  have hn : ((0 * 16 + 0) * 16 + c.toNat / 16) * 16 + c.toNat % 16 = c.toNat := by omega
  have hu : readUnicode ('0' :: '0' :: hexDigit (c.toNat / 16) :: hexDigit (c.toNat % 16) :: cs) =
      .ok (c, cs) := by
    rw [readUnicode, readHexQuad, hh, hl, hz]
    simp only [hn]
    rw [if_neg (by omega), if_neg (by omega), Char.ofNat_toNat]
  rw [readEscape]
  exact hu

theorem readString_escapeChar (c : Char) {cs text rest : List Char}
    (h : readString cs = .ok (text, rest)) :
    readString (escapeChar c ++ cs) = .ok (c :: text, rest) := by
  have hnamed : ∀ {d name : Char}, c = d → readEscape (name :: cs) = .ok (d, cs) →
      readString ('\\' :: name :: cs) = .ok (c :: text, rest) := by
    rintro d name rfl he
    exact readString_escaped he h
  unfold escapeChar
  split_ifs with hquote hslash hplain hnewline hreturn htab hback hfeed
  · exact hnamed hquote rfl
  · exact hnamed hslash rfl
  · exact readString_plain hquote hslash (Nat.not_lt.mpr hplain) h
  · exact hnamed hnewline rfl
  · exact hnamed hreturn rfl
  · exact hnamed htab rfl
  · exact hnamed hback rfl
  · exact hnamed hfeed rfl
  · exact readString_escaped (readEscape_control (Nat.lt_of_not_le hplain) cs) h

theorem readString_printed (text rest : List Char) :
    readString (text.flatMap escapeChar ++ '"' :: rest) = .ok (text, rest) := by
  induction text with
  | nil =>
    rw [List.flatMap_nil, List.nil_append, readString]
  | cons c text ih =>
    rw [List.flatMap_cons, List.append_assoc]
    exact readString_escapeChar c ih

theorem skipSpace_printString {gap : List Char} (hg : ∀ c ∈ gap, isSpace c = true) (text : String)
    (rest : List Char) :
    skipSpace (gap ++ (printString text ++ rest)) =
      '"' :: (text.toList.flatMap escapeChar ++ '"' :: rest) := by
  rw [skipSpace_append hg, printString, List.append_assoc, List.cons_append,
    skipSpace_cons (by decide)]
  rfl

/-- A printed key with its colon reads back. -/
theorem readKey_printed {layout : Layout} (hl : layout.IsBlank) {gap : List Char}
    (hg : ∀ c ∈ gap, isSpace c = true) (key : String) (rest : List Char) :
    ∃ after, readKey (gap ++ (printString key ++ (layout.colon ++ rest))) = .ok (key, after) ∧
      skipSpace after = skipSpace rest := by
  obtain ⟨space, hcolon, hspace⟩ := hl.colon
  refine ⟨space ++ rest, ?_, skipSpace_append hspace⟩
  rw [readKey, skipSpace_printString hg]
  simp only
  rw [readString_printed, hcolon]
  simp only
  rw [List.cons_append, skipSpace_cons (by decide)]
  simp only [String.ofList_toList]

/-! ## Values -/

mutual

/-- How many arrays and objects stand inside each other. -/
def depth : Json → Nat
  | .arr items => depthItems items + 1
  | .obj members => depthMembers members + 1
  | .null => 0
  | .bool _ => 0
  | .int _ => 0
  | .double _ => 0
  | .str _ => 0

def depthItems : List Json → Nat
  | [] => 0
  | v :: rest => max (depth v) (depthItems rest)

def depthMembers : List (String × Json) → Nat
  | [] => 0
  | (_, v) :: rest => max (depth v) (depthMembers rest)

end

mutual

/-- Whether a value has no number in it. -/
def isNumberless : Json → Bool
  | .arr items => isNumberlessItems items
  | .obj members => isNumberlessMembers members
  | .null => true
  | .bool _ => true
  | .int _ => false
  | .double _ => false
  | .str _ => true

def isNumberlessItems : List Json → Bool
  | [] => true
  | v :: rest => isNumberless v && isNumberlessItems rest

def isNumberlessMembers : List (String × Json) → Bool
  | [] => true
  | (_, v) :: rest => isNumberless v && isNumberlessMembers rest

end

section Steps

variable {stack outer : List Frame} {cs rest after : List Char}

/-- The reader by the first character that is not white space. -/
theorem readValue_cons {c : Char} (hs : skipSpace cs = c :: rest) :
    readValue stack cs =
      if c = '"' then
        match readString rest with
        | .error e => .error e
        | .ok (text, after) => resume stack (.str (String.ofList text)) after
      else if c = '[' then
        if deepest ≤ stack.length then .error .malformed
        else
          match skipSpace rest with
          | [] => .error .unfinished
          | d :: after =>
            if d = ']' then resume stack (.arr []) after else readValue (.items [] :: stack) rest
      else if c = '\x7b' then
        if deepest ≤ stack.length then .error .malformed
        else
          match skipSpace rest with
          | [] => .error .unfinished
          | d :: after =>
            if d = '\x7d' then resume stack (.obj []) after
            else
              match readKey rest with
              | .error e => .error e
              | .ok (key, after) => readValue (.members [] key :: stack) after
      else
        match readLeaf c rest with
        | .error e => .error e
        | .ok (v, after) => resume stack v after := by
  rw [readValue.eq_def]
  split
  · rename_i hn
    cases hs.symm.trans hn
  · rename_i hn
    cases hs.symm.trans hn
    -- Branch by branch, only what the reader keeps for its termination differs.
    congr 1
    · split <;> rename_i hr <;> simp only [hr]
    congr 1
    · congr 1
      split <;> rename_i hr <;> simp only [hr]
    congr 1
    · congr 1
      split <;> rename_i hr <;> simp only [hr]
      congr 1
      split <;> rename_i hk <;> simp only [hk]
    · split <;> rename_i hr <;> simp only [hr]

theorem readValue_string {text : List Char} (hs : skipSpace cs = '"' :: rest)
    (h : readString rest = .ok (text, after)) :
    readValue stack cs = resume stack (.str (String.ofList text)) after := by
  rw [readValue_cons hs, if_pos rfl, h]

theorem readValue_leaf {c : Char} {v : Json} (hs : skipSpace cs = c :: rest) (hq : c ≠ '"')
    (ha : c ≠ '[') (ho : c ≠ '\x7b') (h : readLeaf c rest = .ok (v, after)) :
    readValue stack cs = resume stack v after := by
  rw [readValue_cons hs, if_neg hq, if_neg ha, if_neg ho, h]

theorem readValue_noItems (hs : skipSpace cs = '[' :: rest) (hc : skipSpace rest = ']' :: after)
    (hd : stack.length < deepest) : readValue stack cs = resume stack (.arr []) after := by
  rw [readValue_cons hs, if_neg (by decide), if_pos rfl, if_neg (Nat.not_le.mpr hd), hc]
  exact if_pos rfl

theorem readValue_items {d : Char} (hs : skipSpace cs = '[' :: rest)
    (hc : skipSpace rest = d :: after) (hne : d ≠ ']') (hd : stack.length < deepest) :
    readValue stack cs = readValue (.items [] :: stack) rest := by
  rw [readValue_cons hs, if_neg (by decide), if_pos rfl, if_neg (Nat.not_le.mpr hd), hc]
  exact if_neg hne

theorem readValue_noMembers (hs : skipSpace cs = '\x7b' :: rest)
    (hc : skipSpace rest = '\x7d' :: after) (hd : stack.length < deepest) :
    readValue stack cs = resume stack (.obj []) after := by
  rw [readValue_cons hs, if_neg (by decide), if_neg (by decide), if_pos rfl,
    if_neg (Nat.not_le.mpr hd), hc]
  exact if_pos rfl

theorem readValue_members {d : Char} {key : String} {tail : List Char}
    (hs : skipSpace cs = '\x7b' :: rest) (hc : skipSpace rest = d :: tail) (hne : d ≠ '\x7d')
    (hk : readKey rest = .ok (key, after)) (hd : stack.length < deepest) :
    readValue stack cs = readValue (.members [] key :: stack) after := by
  rw [readValue_cons hs, if_neg (by decide), if_neg (by decide), if_pos rfl,
    if_neg (Nat.not_le.mpr hd), hc]
  refine (if_neg hne).trans ?_
  rw [hk]

/-- What follows an item of an array. -/
theorem resume_items {c : Char} {v : Json} {before : List Json} (hs : skipSpace cs = c :: rest) :
    resume (.items before :: outer) v cs =
      if c = ']' then resume outer (.arr (v :: before).reverse) rest
      else if c = ',' then readValue (.items (v :: before) :: outer) rest
      else .error .malformed := by
  rw [resume.eq_def]
  simp only
  split
  · rename_i hn
    cases hs.symm.trans hn
  · rename_i hn
    cases hs.symm.trans hn
    rfl

/-- What follows a member of an object. -/
theorem resume_members {c : Char} {v : Json} {before : List (String × Json)} {key : String}
    (hs : skipSpace cs = c :: rest) :
    resume (.members before key :: outer) v cs =
      if c = '\x7d' then resume outer (.obj ((key, v) :: before).reverse) rest
      else if c = ',' then
        match readKey rest with
        | .error e => .error e
        | .ok (next, after) => readValue (.members ((key, v) :: before) next :: outer) after
      else .error .malformed := by
  rw [resume.eq_def]
  simp only
  split
  · rename_i hn
    cases hs.symm.trans hn
  · rename_i hn
    cases hs.symm.trans hn
    congr 2
    split <;> rename_i hk <;> simp only [hk]

theorem resume_lastItem {v : Json} {before : List Json} (hs : skipSpace cs = ']' :: rest) :
    resume (.items before :: outer) v cs = resume outer (.arr (v :: before).reverse) rest := by
  rw [resume_items hs, if_pos rfl]

theorem resume_item {v : Json} {before : List Json} (hs : skipSpace cs = ',' :: rest) :
    resume (.items before :: outer) v cs = readValue (.items (v :: before) :: outer) rest := by
  rw [resume_items hs, if_neg (by decide), if_pos rfl]

theorem resume_lastMember {v : Json} {before : List (String × Json)} {key : String}
    (hs : skipSpace cs = '\x7d' :: rest) :
    resume (.members before key :: outer) v cs =
      resume outer (.obj ((key, v) :: before).reverse) rest := by
  rw [resume_members hs, if_pos rfl]

theorem resume_member {v : Json} {before : List (String × Json)} {key next : String}
    (hs : skipSpace cs = ',' :: rest) (hk : readKey rest = .ok (next, after)) :
    resume (.members before key :: outer) v cs =
      readValue (.members ((key, v) :: before) next :: outer) after := by
  rw [resume_members hs, if_neg (by decide), if_pos rfl, hk]

end Steps

section Values

variable {layout : Layout} {level : Nat}

/-- The first character of a printed value opens it. -/
theorem skipSpace_print {v : Json} (hv : isNumberless v = true) {gap : List Char}
    (hg : ∀ c ∈ gap, isSpace c = true) (rest : List Char) :
    ∃ d tail, skipSpace (gap ++ (print layout level v ++ rest)) = d :: tail ∧ d ≠ ']' := by
  have hd : ∃ d tail, print layout level v = d :: tail ∧ isSpace d = false ∧ d ≠ ']' := by
    cases v with
    | null => exact ⟨_, _, rfl, rfl, by decide⟩
    | bool b => cases b <;> exact ⟨_, _, rfl, rfl, by decide⟩
    | int n => cases hv
    | double x => cases hv
    | str text => exact ⟨_, _, rfl, rfl, by decide⟩
    | arr items => cases items <;> exact ⟨_, _, rfl, rfl, by decide⟩
    | obj members =>
      cases members with
      | nil => exact ⟨_, _, rfl, rfl, by decide⟩
      | cons member rest => exact ⟨_, _, rfl, rfl, by decide⟩
  obtain ⟨d, tail, hp, hspace, hne⟩ := hd
  exact ⟨d, tail ++ rest, by rw [skipSpace_append hg, hp, List.cons_append, skipSpace_cons hspace],
    hne⟩

variable (hl : layout.IsBlank)
include hl

mutual

/-- The reader takes in a printed value and goes on behind it. -/
theorem readValue_print (level : Nat) (v : Json) (hv : isNumberless v = true) (stack : List Frame)
    {cs rest : List Char} (hs : skipSpace cs = skipSpace (print layout level v ++ rest))
    (hd : stack.length + depth v ≤ deepest) : readValue stack cs = resume stack v rest := by
  cases v with
  | null =>
    rw [print, List.cons_append, skipSpace_cons (by decide)] at hs
    exact readValue_leaf hs (by decide) (by decide) (by decide) rfl
  | bool b =>
    cases b with
    | true =>
      rw [print, List.cons_append, skipSpace_cons (by decide)] at hs
      exact readValue_leaf hs (by decide) (by decide) (by decide) rfl
    | false =>
      rw [print, List.cons_append, skipSpace_cons (by decide)] at hs
      exact readValue_leaf hs (by decide) (by decide) (by decide) rfl
  | int n => cases hv
  | double x => cases hv
  | str text =>
    rw [print, printString, List.append_assoc, List.cons_append, skipSpace_cons (by decide)] at hs
    rw [readValue_string hs (readString_printed text.toList rest), String.ofList_toList]
  | arr items =>
    cases items with
    | nil =>
      rw [print, List.cons_append, skipSpace_cons (by decide)] at hs
      exact readValue_noItems hs (skipSpace_cons (by decide) rest)
        (by simp only [depth, depthItems] at hd; omega)
    | cons first items =>
      simp only [isNumberless, isNumberlessItems, Bool.and_eq_true] at hv
      simp only [depth, depthItems] at hd
      simp only [print, List.cons_append, List.append_assoc, List.nil_append] at hs
      rw [skipSpace_cons (by decide)] at hs
      obtain ⟨d, tail, hc, hne⟩ := skipSpace_print hv.1 (hl.lineBreak (level + 1))
        (printItems layout (level + 1) items ++ (layout.lineBreak level ++ ']' :: rest))
      rw [readValue_items hs hc hne (by omega),
        readValue_print (level + 1) first hv.1 (.items [] :: stack)
          (skipSpace_append (hl.lineBreak (level + 1))) (by simp only [List.length_cons]; omega),
        resume_printItems (level + 1) items hv.2 first [] (hl.lineBreak level) rest (by omega)]
      rfl
  | obj members =>
    cases members with
    | nil =>
      rw [print, List.cons_append, skipSpace_cons (by decide)] at hs
      exact readValue_noMembers hs (skipSpace_cons (by decide) rest)
        (by simp only [depth, depthMembers] at hd; omega)
    | cons member members =>
      obtain ⟨key, first⟩ := member
      simp only [isNumberless, isNumberlessMembers, Bool.and_eq_true] at hv
      simp only [depth, depthMembers] at hd
      simp only [print, List.cons_append, List.append_assoc, List.nil_append] at hs
      rw [skipSpace_cons (by decide)] at hs
      obtain ⟨after, hk, ha⟩ := readKey_printed hl (hl.lineBreak (level + 1)) key
        (print layout (level + 1) first ++ (printMembers layout (level + 1) members ++
          (layout.lineBreak level ++ '\x7d' :: rest)))
      rw [readValue_members hs (skipSpace_printString (hl.lineBreak (level + 1)) key _) (by decide) hk
          (by omega),
        readValue_print (level + 1) first hv.1 (.members [] key :: stack) ha
          (by simp only [List.length_cons]; omega),
        resume_printMembers (level + 1) members hv.2 key first [] (hl.lineBreak level) rest
          (by omega)]
      rfl

theorem resume_printItems (level : Nat) (items : List Json) (hv : isNumberlessItems items = true)
    (v : Json) (before : List Json) {outer : List Frame} {gap : List Char}
    (hg : ∀ c ∈ gap, isSpace c = true) (rest : List Char)
    (hd : outer.length + (depthItems items + 1) ≤ deepest) :
    resume (.items before :: outer) v (printItems layout level items ++ (gap ++ ']' :: rest)) =
      resume outer (.arr ((v :: before).reverse ++ items)) rest := by
  cases items with
  | nil =>
    rw [printItems, List.nil_append, List.append_nil]
    exact resume_lastItem ((skipSpace_append hg).trans (skipSpace_cons (by decide) rest))
  | cons first items =>
    simp only [isNumberlessItems, Bool.and_eq_true] at hv
    simp only [depthItems] at hd
    simp only [printItems, List.cons_append, List.append_assoc]
    rw [resume_item (skipSpace_cons (by decide) _),
      readValue_print level first hv.1 (.items (v :: before) :: outer)
        (skipSpace_append (hl.lineBreak level)) (by simp only [List.length_cons]; omega),
      resume_printItems level items hv.2 first (v :: before) hg rest (by omega)]
    simp

theorem resume_printMembers (level : Nat) (members : List (String × Json))
    (hv : isNumberlessMembers members = true) (key : String) (v : Json)
    (before : List (String × Json)) {outer : List Frame} {gap : List Char}
    (hg : ∀ c ∈ gap, isSpace c = true) (rest : List Char)
    (hd : outer.length + (depthMembers members + 1) ≤ deepest) :
    resume (.members before key :: outer) v
        (printMembers layout level members ++ (gap ++ '\x7d' :: rest)) =
      resume outer (.obj (((key, v) :: before).reverse ++ members)) rest := by
  cases members with
  | nil =>
    rw [printMembers, List.nil_append, List.append_nil]
    exact resume_lastMember ((skipSpace_append hg).trans (skipSpace_cons (by decide) rest))
  | cons member members =>
    obtain ⟨next, first⟩ := member
    simp only [isNumberlessMembers, Bool.and_eq_true] at hv
    simp only [depthMembers] at hd
    simp only [printMembers, List.cons_append, List.append_assoc]
    obtain ⟨after, hk, ha⟩ := readKey_printed hl (hl.lineBreak level) next
      (print layout level first ++ (printMembers layout level members ++ (gap ++ '\x7d' :: rest)))
    rw [resume_member (skipSpace_cons (by decide) _) hk,
      readValue_print level first hv.1 (.members ((key, v) :: before) next :: outer) ha
        (by simp only [List.length_cons]; omega),
      resume_printMembers level members hv.2 next first ((key, v) :: before) hg rest (by omega)]
    simp

end

end Values

/-- A printed value reads back with its keys settled, also with white space
behind it. -/
theorem read_print {layout : Layout} (hl : layout.IsBlank) {v : Json} (hv : isNumberless v = true)
    (hd : depth v ≤ deepest) {gap : List Char} (hg : ∀ c ∈ gap, isSpace c = true) :
    read (String.ofList (print layout 0 v ++ gap)) = .ok v.distinct := by
  have hr : readFirst (print layout 0 v ++ gap) = .ok (v, gap) := by
    rw [readFirst, readValue_print hl 0 v hv [] rfl (by simpa using hd), resume]
  have he : atEnd gap = true := by
    rw [atEnd, ← List.append_nil gap, skipSpace_append hg]
    rfl
  rw [read, String.toList_ofList, hr]
  simp only [he, if_true]

theorem read_pretty {v : Json} (hv : isNumberless v = true) (hd : depth v ≤ deepest) :
    read (v.pretty ++ "\n") = .ok v.distinct := by
  have ht : v.pretty ++ "\n" = String.ofList (print .indented 0 v ++ ['\n']) := by
    rw [String.ofList_append]
    rfl
  rw [ht, read_print isBlank_indented hv hd (List.forall_mem_singleton.mpr rfl)]

/-! ## Distinct keys -/

theorem mem_distinctMembers {members : List (String × Json)} {member : String × Json}
    (h : member ∈ distinctMembers members) : ∃ v, member.2 = distinct v := by
  induction members with
  | nil => cases h
  | cons first rest ih =>
    rcases List.mem_cons.mp h with rfl | h
    · exact ⟨first.2, rfl⟩
    · exact ih h

/-- In an object with its keys settled they are distinct, and so are those of
the values in it. -/
theorem nodup_keys_of_distinct {v : Json} {members : Members} (h : v.distinct = .obj members) :
    members.keys.Nodup ∧ ∀ member ∈ members, ∃ w, member.2 = distinct w := by
  cases v with
  | obj found =>
    obtain rfl := Json.obj.inj h
    rw [Entries.merged_eq]
    refine ⟨Entries.nodup_keys_insertAll List.nodup_nil, ?_⟩
    intro member hm
    rcases Entries.mem_insertAll hm with ⟨entry, he, rfl⟩ | hm
    · exact mem_distinctMembers he
    · cases hm
  | _ => cases h

theorem exists_distinct_of_read {text : String} {v : Json} (h : read text = .ok v) :
    ∃ w, v = distinct w := by
  unfold read at h
  split at h
  · cases h
  · split at h
    · exact ⟨_, (Except.ok.inj h).symm⟩
    · cases h

/-! ## Plain values -/

/-- A value that reads back as it is: it has no numbers, at most this depth, and
no key twice in one object. -/
structure IsPlain (d : Nat) (v : Json) : Prop where
  numberless : isNumberless v = true
  depth_le : depth v ≤ d
  distinct : v.distinct = v

variable {d d' : Nat} {v : Json} {members : Members}

theorem IsPlain.read_pretty (h : IsPlain deepest v) : read (v.pretty ++ "\n") = .ok v := by
  rw [Json.read_pretty h.numberless h.depth_le, h.distinct]

theorem IsPlain.read_compact (h : IsPlain deepest v) : read v.compact = .ok v := by
  have hr := read_print isBlank_compact h.numberless h.depth_le (List.forall_mem_nil _)
  rwa [List.append_nil, h.distinct] at hr

theorem IsPlain.mono (h : IsPlain d v) (hd : d ≤ d') : IsPlain d' v :=
  ⟨h.numberless, h.depth_le.trans hd, h.distinct⟩

theorem isPlain_str (text : String) : IsPlain d (.str text) := ⟨rfl, Nat.zero_le d, rfl⟩

theorem isPlain_bool (b : Bool) : IsPlain d (.bool b) := ⟨rfl, Nat.zero_le d, rfl⟩

theorem IsPlain.arr {items : List Json} (h : ∀ v ∈ items, IsPlain d v) :
    IsPlain (d + 1) (.arr items) := by
  have hitems : isNumberlessItems items = true ∧ depthItems items ≤ d ∧
      distinctItems items = items := by
    induction items with
    | nil => exact ⟨rfl, Nat.zero_le _, rfl⟩
    | cons v rest ih =>
      obtain ⟨hfirst, hrest⟩ := List.forall_mem_cons.mp h
      obtain ⟨hnumberless, hdepth, hdistinct⟩ := ih hrest
      refine ⟨?_, ?_, ?_⟩
      · rw [isNumberlessItems, hfirst.numberless, hnumberless, Bool.and_self]
      · rw [depthItems]
        exact max_le hfirst.depth_le hdepth
      · rw [distinctItems, hfirst.distinct, hdistinct]
  exact ⟨hitems.1, Nat.succ_le_succ hitems.2.1, by rw [Json.distinct, hitems.2.2]⟩

/-- An object of plain values under distinct keys. -/
theorem IsPlain.obj (hn : members.keys.Nodup) (h : ∀ member ∈ members, IsPlain d member.2) :
    IsPlain (d + 1) (.obj members) := by
  have hmembers : isNumberlessMembers members = true ∧ depthMembers members ≤ d ∧
      distinctMembers members = members := by
    clear hn
    induction members with
    | nil => exact ⟨rfl, Nat.zero_le _, rfl⟩
    | cons member rest ih =>
      obtain ⟨hfirst, hrest⟩ := List.forall_mem_cons.mp h
      obtain ⟨hnumberless, hdepth, hdistinct⟩ := ih hrest
      refine ⟨?_, ?_, ?_⟩
      · rw [isNumberlessMembers, hfirst.numberless, hnumberless, Bool.and_self]
      · rw [depthMembers]
        exact max_le hfirst.depth_le hdepth
      · rw [distinctMembers, hfirst.distinct, hdistinct]
  refine ⟨hmembers.1, Nat.succ_le_succ hmembers.2.1, ?_⟩
  rw [Json.distinct, hmembers.2.2, Entries.merged_of_nodup hn]

end ElementWrappers.Json

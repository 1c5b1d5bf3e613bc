import ElementWrappers.TypeExpr.Names
import ElementWrappers.TypeExpr.Scan

/-!
# Renaming whole words

Every use of a name as a whole word is replaced: not inside string literals,
not after a dot, and not where it is the key of an object.
-/

namespace ElementWrappers.TypeExpr

/-- Whether a colon, possibly after a question mark, comes next. -/
def startsLikeKeyEnd (after : List Char) : Bool :=
  match Text.trimStart after with
  | ':' :: _ => true
  | '?' :: ':' :: _ => true
  | _ => false

/-- Whether a word may begin after the characters `before`, the nearest first. -/
def wordMayBegin (before : List Char) : Bool :=
  match before with
  | [] => true
  | c :: _ => !isIdentifierChar c && c != '.'

/-- Whether a word may end before the characters `after`. -/
def wordMayEnd (after : List Char) : Bool :=
  match after with
  | [] => true
  | c :: _ => !isIdentifierChar c

/-- Whether a word between `before` and `after` is the key of an object. -/
def isKey (before after : List Char) : Bool :=
  (match Text.trimStart before with
    | c :: _ => c == '{' || c == ',' || c == ';'
    | [] => false) &&
  startsLikeKeyEnd after

/-- Whether a word between `before` and `after` is a use of a type. -/
def isUse (before after : List Char) : Bool :=
  wordMayBegin before && wordMayEnd after && !isKey before after

/-- Copies or drops the next `left` characters of an occurrence that was found,
then looks for the next one. `before` holds the characters passed, the nearest
first. -/
def renameFrom (name replacement : List Char) (before : List Char) (quotes : Quotes) (left : Nat)
    (kept : Bool) : List Char → List Char
  | [] =>
    if name.isEmpty && isUse before [] then replacement else []
  | c :: rest =>
    match left with
    | n + 1 =>
      (if kept then [c] else []) ++
        renameFrom name replacement (c :: before) (quotes.step c) n kept rest
    | 0 =>
      if name.isPrefixOf (c :: rest) then
        if !quotes.covers c && isUse before ((c :: rest).drop name.length) then
          replacement ++ (if name.isEmpty then [c] else []) ++
            renameFrom name replacement (c :: before) (quotes.step c) (name.length - 1) false rest
        else
          c :: renameFrom name replacement (c :: before) (quotes.step c) (name.length - 1) true rest
      else c :: renameFrom name replacement (c :: before) (quotes.step c) 0 true rest

/-- Replaces the uses of `name`. -/
def rename (name replacement text : List Char) : List Char :=
  renameFrom name replacement [] {} 0 true text

end ElementWrappers.TypeExpr

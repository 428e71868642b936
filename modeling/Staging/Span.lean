namespace Staging

/-- Half-open range of byte offsets into a source text. -/
structure Span where
  start : Nat
  stop : Nat
deriving DecidableEq, Inhabited

/-- Number of bytes that a run of characters takes in UTF-8. -/
def byteLength (cs : List Char) : Nat :=
  cs.foldr (fun c n => c.utf8Size + n) 0

/-- The characters in front of a byte offset. An offset past the end stands for
the end; one inside a character has no characters in front of it. -/
def charsBefore : Nat → List Char → Option (List Char)
  | 0, _ => some []
  | _ + 1, [] => some []
  | n + 1, c :: cs =>
    if c.utf8Size ≤ n + 1 then (charsBefore (n + 1 - c.utf8Size) cs).map (c :: ·) else none

/-- Moves a line and column over one character. Columns count bytes. -/
def advance (place : Nat × Nat) (c : Char) : Nat × Nat :=
  if c = '\n' then (place.1 + 1, 1) else (place.1, place.2 + c.utf8Size)

/-- Line and column of a byte offset, both counted from 1. -/
def lineColumn? (source : String) (offset : Nat) : Option (Nat × Nat) :=
  (charsBefore offset source.toList).map fun before => before.foldl advance (1, 1)

theorem byteLength_append (xs ys : List Char) :
    byteLength (xs ++ ys) = byteLength xs + byteLength ys := by
  induction xs with
  | nil => simp [byteLength]
  | cons c xs ih => simpa [byteLength, Nat.add_assoc] using ih

theorem byteLength_cons (c : Char) (cs : List Char) :
    byteLength (c :: cs) = c.utf8Size + byteLength cs :=
  rfl

end Staging

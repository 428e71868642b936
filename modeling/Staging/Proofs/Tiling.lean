import Staging.Proofs.Misfits

namespace Staging

/-- A stretch of a source text, and what it is. -/
structure Tile where
  piece : Piece
  text : List Char
  span : Span

def Tile.token? (tile : Tile) : Option Lexed :=
  match tile.piece with
  | .token t => some ⟨t, tile.span⟩
  | _ => none

def Tile.bad? (tile : Tile) : Option BadText :=
  match tile.piece with
  | .bad => some ⟨String.ofList tile.text, tile.span⟩
  | _ => none

/-- The text of a token is the longest one that any pattern describes where the token starts. A word
is a name only if it is no keyword. -/
structure Token.Longest (t : Token) (text behind : List Char) : Prop where
  matched : text ∈ t.pattern
  longest : ∀ (other : Token) (u rest : List Char), u ∈ other.pattern →
    text ++ behind = u ++ rest → u.length ≤ text.length
  keyword : ∀ name, t = .ident name → ∀ k : Keyword, text ≠ k.text.toList

/-- A character between tokens, or a comment up to the end of its line. -/
def Blank (text behind : List Char) : Prop :=
  (∃ c, text = [c] ∧ (c = ' ' ∨ c = '\t' ∨ c = '\r')) ∨
    ∃ inside, text = '#' :: inside ∧ '\n' ∉ inside ∧ ∀ c ∈ behind.head?, c = '\n'

/-- What a tile is agrees with its text, and with the text behind it. -/
def Tile.Stands (tile : Tile) (behind : List Char) : Prop :=
  match tile.piece with
  | .token t => t.Longest tile.text behind
  | .bad => Misfit tile.text behind
  | .blank => Blank tile.text behind

/-- A text that starts at some offset is made of tiles, one behind the other. -/
inductive Tiles : Nat → List Char → List Tile → Prop
  | nil (start : Nat) : Tiles start [] []
  | cons {start : Nat} {piece : Piece} {text rest : List Char} {tiles : List Tile} (ne : text ≠ [])
      (stands : (Tile.mk piece text ⟨start, start + byteLength text⟩).Stands rest)
      (more : Tiles (start + byteLength text) rest tiles) :
      Tiles start (text ++ rest) (⟨piece, text, ⟨start, start + byteLength text⟩⟩ :: tiles)

section Cut

variable {c : Char} {cs text : List Char}

theorem cut_token_longest {t : Token} (h : (cut c cs).piece = .token t)
    (split : c :: cs = text ++ (cut c cs).rest) : t.Longest text (cut c cs).rest := by
  refine ⟨?_, fun other u rest hu same => ?_, fun name ident k same => ?_⟩
  · obtain ⟨found, eq, matched⟩ := cut_matches h
    rw [split] at eq
    rw [List.append_cancel_right eq]
    exact matched
  · have suffix := cut_longest h hu (split.trans same)
    have lengths := congrArg List.length same
    rw [List.length_append, List.length_append] at lengths
    have short := suffix.length_le
    omega
  · subst ident
    have proper : IsWord name ∧ Keyword.ofText? name = none := cut_proper h
    obtain ⟨found, eq, fits⟩ := cut_fits h
    rw [split] at eq
    have named : text = name.toList := (List.append_cancel_right eq).trans fits
    have word : k.text = name := String.toList_inj.mp (same.symm.trans named)
    have known := Keyword.ofText?_text k
    rw [word, proper.2] at known
    cases known

theorem cutInt_ne_blank (negative : Bool) (cs : List Char) :
    (cutInt negative cs).piece ≠ .blank := by
  obtain ⟨v, piece⟩ : ∃ v, (cutInt negative cs).piece =
      if fitsInt v then .token (.int v) else .bad := ⟨_, rfl⟩
  rw [piece]
  split
  next => exact fun h => nomatch h
  next => exact fun h => nomatch h

theorem cutWord_ne_blank (cs : List Char) : (cutWord cs).piece ≠ .blank := by
  intro h
  unfold cutWord at h
  split at h
  next =>
    unfold cutShaped at h
    split at h
    next => cases h
    next => cases h
  next => cases h

theorem cut_blank (h : (cut c cs).piece = .blank) (split : c :: cs = text ++ (cut c cs).rest) :
    Blank text (cut c cs).rest := by
  cases lead : Lead.ofChar c with
  | blank =>
    have one : c :: cs = [c] ++ (cut c cs).rest := by simp only [cut, lead]; rfl
    have text_eq := List.append_cancel_right (split.symm.trans one)
    exact Or.inl ⟨c, text_eq, Lead.ofChar_blank lead⟩
  | comment =>
    obtain rfl := Lead.ofChar_comment lead
    have whole : '#' :: cs = ('#' :: cs.takeWhile (· ≠ '\n')) ++ (cut '#' cs).rest := by
      simp only [cut, lead]
      rw [List.cons_append, List.takeWhile_append_dropWhile]
    have text_eq := List.append_cancel_right (split.symm.trans whole)
    refine Or.inr ⟨_, text_eq, fun line => ?_, fun d hd => ?_⟩
    · simpa using List.mem_takeWhile_imp line
    · simp only [cut, lead] at hd
      have stop := List.head?_dropWhile_not (· ≠ '\n') cs
      rw [Option.mem_def.mp hd] at stop
      simpa using stop
  | quote =>
    simp only [cut, lead, cutString] at h
    split at h
    next => cases h
    next => cases h
  | percent =>
    simp only [cut, lead, cutValue] at h
    split at h
    next => cases h
    next => cases h
  | «at» =>
    simp only [cut, lead, cutSymbol] at h
    split at h
    next => cases h
    next => cases h
  | minus =>
    simp only [cut, lead] at h
    split at h
    next => exact absurd h (cutInt_ne_blank true cs)
    next => cases h
  | digit =>
    simp only [cut, lead] at h
    exact absurd h (cutInt_ne_blank false (c :: cs))
  | letter =>
    simp only [cut, lead] at h
    exact absurd h (cutWord_ne_blank (c :: cs))
  | newline | mark | other => simp [cut, lead] at h

end Cut

/-- The first piece of a text is a tile in front of those of the rest. -/
theorem Tiles.cut {start : Nat} {c : Char} {cs text : List Char} {tiles : List Tile}
    (split : c :: cs = text ++ (cut c cs).rest)
    (more : Tiles (start + byteLength text) (Staging.cut c cs).rest tiles) : Tiles start (c :: cs)
      (⟨(Staging.cut c cs).piece, text, ⟨start, start + byteLength text⟩⟩ :: tiles) := by
  have ne : text ≠ [] := by
    intro empty
    have short := (cut_suffix c cs).length_le
    have lengths := congrArg List.length split
    rw [empty, List.nil_append, List.length_cons] at lengths
    omega
  have stands : (Tile.mk (Staging.cut c cs).piece text ⟨start, start + byteLength text⟩).Stands
      (Staging.cut c cs).rest := by
    unfold Tile.Stands
    split
    next t h => exact cut_token_longest h split
    next h => exact cut_misfit h split
    next h => exact cut_blank h split
  have tiles := Tiles.cons ne stands more
  rwa [← split] at tiles

/-- The lexer cuts a text into tiles, and keeps those that are tokens and those that are bad. -/
theorem lexFrom_tiles (start : Nat) (cs : List Char) : ∃ tiles, Tiles start cs tiles ∧
    (lexFrom start cs).tokens = tiles.filterMap Tile.token? ∧
    (lexFrom start cs).bad = tiles.filterMap Tile.bad? := by
  fun_induction lexFrom start cs with
  | case1 start => exact ⟨[], .nil start, rfl, rfl⟩
  | case2 start c cs _ text span later token piece =>
    rename_i ih
    obtain ⟨tiles, tiled, tokens, bad⟩ := ih
    refine ⟨_, .cut (split_cut c cs) tiled, ?_, ?_⟩
    · rw [List.filterMap_cons, Tile.token?, piece, ← tokens]
      rfl
    · rw [List.filterMap_cons, Tile.bad?, piece, ← bad]
      rfl
  | case3 start c cs _ text span later piece =>
    rename_i ih
    obtain ⟨tiles, tiled, tokens, bad⟩ := ih
    refine ⟨_, .cut (split_cut c cs) tiled, ?_, ?_⟩
    · rw [List.filterMap_cons, Tile.token?, piece, ← tokens]
      rfl
    · rw [List.filterMap_cons, Tile.bad?, piece, ← bad]
      rfl
  | case4 start c cs _ text span later piece =>
    rename_i ih
    obtain ⟨tiles, tiled, tokens, bad⟩ := ih
    refine ⟨_, .cut (split_cut c cs) tiled, ?_, ?_⟩
    · rw [List.filterMap_cons, Tile.token?, piece, ← tokens]
    · rw [List.filterMap_cons, Tile.bad?, piece, ← bad]

section Tiles

variable {start : Nat} {cs : List Char} {tiles : List Tile}

theorem Tiles.whole (h : Tiles start cs tiles) : tiles.flatMap Tile.text = cs := by
  induction h with
  | nil => rfl
  | cons ne stands more ih => rw [List.flatMap_cons, ih]

/-- Where a tile is depends on the texts of the tiles in front of it. -/
theorem Tiles.at (h : Tiles start cs tiles) {x y : List Tile} {tile : Tile}
    (split : tiles = x ++ tile :: y) : tile.text ≠ [] ∧ tile.Stands (y.flatMap Tile.text) ∧
      tile.span = ⟨start + byteLength (x.flatMap Tile.text),
        start + byteLength (x.flatMap Tile.text) + byteLength tile.text⟩ := by
  induction h generalizing x with
  | nil => simp at split
  | @cons start piece text rest tiles ne stands more ih =>
    cases x with
    | nil =>
      obtain ⟨rfl, rfl⟩ := List.cons.inj split
      refine ⟨ne, ?_, rfl⟩
      rw [more.whole]
      exact stands
    | cons first x =>
      obtain ⟨rfl, rfl⟩ := List.cons.inj split
      obtain ⟨ne, stands, span⟩ := ih rfl
      refine ⟨ne, stands, ?_⟩
      rw [span, List.flatMap_cons, byteLength_append]
      simp only [Nat.add_assoc]

theorem byteLength_pos {text : List Char} (ne : text ≠ []) : 0 < byteLength text := by
  obtain ⟨c, rest, rfl⟩ := List.exists_cons_of_ne_nil ne
  rw [byteLength_cons]
  have := c.utf8Size_pos
  omega

theorem Tiles.start_le (h : Tiles start cs tiles) : ∀ tile ∈ tiles, start ≤ tile.span.start := by
  intro tile ht
  obtain ⟨x, y, split⟩ := List.append_of_mem ht
  rw [(h.at split).2.2]
  exact Nat.le_add_right _ _

/-- Tiles lie one behind the other. -/
theorem Tiles.ordered (h : Tiles start cs tiles) :
    (tiles.map Tile.span).Pairwise fun a b => a.stop ≤ b.start := by
  induction h with
  | nil => exact List.Pairwise.nil
  | @cons start piece text rest tiles ne stands more ih =>
    refine List.pairwise_cons.mpr ⟨fun span hs => ?_, ih⟩
    obtain ⟨tile, ht, rfl⟩ := List.mem_map.mp hs
    exact more.start_le tile ht

/-- Each byte of the text belongs to a tile. -/
theorem Tiles.covers (h : Tiles start cs tiles) {offset : Nat} (low : start ≤ offset)
    (high : offset < start + byteLength cs) :
    ∃ tile ∈ tiles, tile.span.start ≤ offset ∧ offset < tile.span.stop := by
  induction h with
  | nil start =>
    have empty : byteLength [] = 0 := rfl
    omega
  | @cons start piece text rest tiles ne stands more ih =>
    by_cases here : offset < start + byteLength text
    · exact ⟨_, List.mem_cons_self, low, here⟩
    · rw [byteLength_append] at high
      obtain ⟨tile, ht, inside⟩ := ih (by omega) (by omega)
      exact ⟨tile, List.mem_cons_of_mem _ ht, inside⟩

end Tiles

/-- The tokens and the bad stretches of a source text, merged in order, together with the blanks and
comments between them, make up the whole text. All of them end between two characters and come one
behind the other, a token takes in as much as any pattern can, and there is a reason for each stretch
that is bad. -/
theorem lex_tiles (source : String) : ∃ tiles : List Tile,
    tiles.flatMap Tile.text = source.toList ∧
    (lex source).tokens = tiles.filterMap Tile.token? ∧
    (lex source).bad = tiles.filterMap Tile.bad? ∧
    (tiles.map Tile.span).Pairwise (fun a b => a.stop ≤ b.start) ∧
    (∀ offset, offset < byteLength source.toList →
      ∃ tile ∈ tiles, tile.span.start ≤ offset ∧ offset < tile.span.stop) ∧
    ∀ x tile y, tiles = x ++ tile :: y → tile.Stands (y.flatMap Tile.text) ∧
      tile.span.start < tile.span.stop ∧ tile.span.stop ≤ byteLength source.toList ∧
      IsBoundary source.toList tile.span.start ∧ IsBoundary source.toList tile.span.stop ∧
      textAt source tile.span = some (String.ofList tile.text) := by
  obtain ⟨tiles, tiled, tokens, bad⟩ := lexFrom_tiles 0 source.toList
  refine ⟨tiles, tiled.whole, tokens, bad, tiled.ordered, fun offset high => ?_,
    fun x tile y split => ?_⟩
  · exact tiled.covers (Nat.zero_le offset) (by omega)
  · obtain ⟨ne, stands, span⟩ := tiled.at split
    have whole : source.toList = x.flatMap Tile.text ++ (tile.text ++ y.flatMap Tile.text) := by
      rw [← tiled.whole, split, List.flatMap_append, List.flatMap_cons]
    have cuts := cuts_of_prefix whole
    have long := byteLength_pos ne
    have length : byteLength source.toList = byteLength (x.flatMap Tile.text) +
        (byteLength tile.text + byteLength (y.flatMap Tile.text)) := by
      rw [whole, byteLength_append, byteLength_append]
    rw [Nat.zero_add] at span
    refine ⟨stands, ?_, ?_, ?_, ?_, ?_⟩
    · rw [span]
      dsimp only
      omega
    · rw [span]
      dsimp only
      omega
    · rw [span]
      exact cuts.start
    · rw [span]
      refine ⟨x.flatMap Tile.text ++ tile.text, ⟨y.flatMap Tile.text, ?_⟩, byteLength_append _ _⟩
      rw [whole, List.append_assoc]
    · rw [span]
      exact cuts.text

end Staging

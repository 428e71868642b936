import Staging.Proofs.Tiling

namespace Staging

/-- The first piece of `text ++ rest` is `text`. -/
def CutsOff (text : List Char) (piece : Piece) (rest : List Char) : Prop :=
  ∃ c more, text = c :: more ∧ cut c (more ++ rest) = ⟨piece, rest⟩

/-- The lexer reads the pieces of a text, one behind the other, and comes to what is left of it. -/
inductive Reads : List Char → List Char → List Piece → Prop
  | nil (after : List Char) : Reads [] after []
  | cons {text front after : List Char} {piece : Piece} {pieces : List Piece} :
    CutsOff text piece (front ++ after) → Reads front after pieces →
      Reads (text ++ front) after (piece :: pieces)

/-- Behind a token, one text is as good as another, or ends the token. -/
def Token.Follows (t : Token) (rest rest' : List Char) : Prop :=
  rest'.head? = rest.head? ∨ t.Ends rest'

section Runs

variable {p : Char → Bool} {more rest rest' : List Char}

/-- A text was taken as long as `p` held of its characters. -/
theorem run_of_dropWhile (h : (more ++ rest).dropWhile p = rest) :
    (∀ c ∈ more, p c = true) ∧ ∀ c ∈ rest.head?, p c = false := by
  have taken : (more ++ rest).takeWhile p = more := by
    have whole := @List.takeWhile_append_dropWhile _ p (more ++ rest)
    rw [h] at whole
    exact List.append_cancel_right whole
  refine ⟨fun c hc => List.mem_takeWhile_imp (taken ▸ hc), fun c hc => ?_⟩
  have stop := List.head?_dropWhile_not p (more ++ rest)
  rw [h, Option.mem_def.mp hc] at stop
  simpa using stop

/-- The same is taken where something else stops it. -/
theorem run_again (h : (more ++ rest).dropWhile p = rest)
    (stop : ∀ c ∈ rest'.head?, p c = false) :
    (more ++ rest').takeWhile p = (more ++ rest).takeWhile p ∧
      (more ++ rest').dropWhile p = rest' := by
  obtain ⟨all, end'⟩ := run_of_dropWhile h
  exact ⟨by rw [takeWhile_run all stop, takeWhile_run all end'], dropWhile_run all stop⟩

/-- A run that something stops is stopped by what starts in the same way, or by what ends it. -/
theorem Token.Follows.stop {t : Token} (follows : t.Follows rest rest')
    (h : (more ++ rest).dropWhile p = rest)
    (ends : t.Ends rest' → ∀ c ∈ rest'.head?, p c = false) : ∀ c ∈ rest'.head?, p c = false := by
  rcases follows with same | ended
  · rw [same]
    exact (run_of_dropWhile h).2
  · exact ends ended

/-- What starts a run that was taken still starts it. -/
theorem head_again {q : Char → Bool} (h : (more ++ rest).dropWhile p = rest)
    (sub : ∀ c, q c = true → p c = true) (starts : (more ++ rest).head?.any q = true) :
    (more ++ rest').head?.any q = true := by
  cases more with
  | nil =>
    obtain ⟨c, head, start⟩ := (Option.any_eq_true _ _).mp starts
    have stop := (run_of_dropWhile h).2 c head
    rw [sub c start] at stop
    cases stop
  | cons d more => exact starts

end Runs

section Again

variable {c : Char} {cs more rest rest' : List Char} {t : Token} {piece : Piece}

theorem cutString_again (h : cutString (more ++ rest) = ⟨.token t, rest⟩) :
    cutString (more ++ rest') = ⟨.token t, rest'⟩ := by
  have found := congrArg Cut.piece h
  have left : (stringBody (more ++ rest)).2 = rest := congrArg Cut.rest h
  simp only [cutString] at found
  cases body : (stringBody (more ++ rest)).1 with
  | none => simp [body] at found
  | some inside =>
    have whole := stringBody_text body
    rw [left] at whole
    have closed : more = inside ++ ['"'] := List.append_cancel_right (by simpa using whole)
    have again : stringBody (inside ++ '"' :: rest') = (some inside, rest') :=
      stringBody_of_mem (mem_of_stringBody body)
    simp only [body] at found
    simp only [cutString, closed, List.append_assoc, List.cons_append, List.nil_append, again,
      found]

theorem cutValue_again (h : cutValue (more ++ rest) = ⟨.token t, rest⟩)
    (follows : t.Follows rest rest') : cutValue (more ++ rest') = ⟨.token t, rest'⟩ := by
  unfold cutValue at h
  split at h
  next named =>
    obtain ⟨piece, left⟩ := Cut.mk.inj h
    cases piece
    obtain ⟨word, left'⟩ := run_again left (follows.stop left fun ends c hc => (ends c hc).1)
    rw [cutValue, if_pos (head_again left (fun _ => id) named), left', wordAt, word, wordAt]
  next => cases h

theorem cutSymbol_again (h : cutSymbol (more ++ rest) = ⟨.token t, rest⟩)
    (follows : t.Follows rest rest') : cutSymbol (more ++ rest') = ⟨.token t, rest'⟩ := by
  unfold cutSymbol at h
  split at h
  next named =>
    obtain ⟨piece, left⟩ := Cut.mk.inj h
    cases piece
    obtain ⟨word, left'⟩ := run_again left (follows.stop left fun ends c hc => (ends c hc).1)
    rw [cutSymbol, if_pos (head_again left (fun _ => isWordChar_of_isWordStart) named), left',
      wordAt, word, wordAt]
  next => cases h

theorem not_isDigit_of_not_isWordChar (h : isWordChar c = false) : c.isDigit = false := by
  simp only [isWordChar, Char.isAlphanum, Bool.or_eq_false_iff] at h
  exact h.1.2

theorem cutInt_again {negative : Bool} (h : cutInt negative (more ++ rest) = ⟨.token t, rest⟩)
    (follows : t.Follows rest rest') :
    (more ++ rest).dropWhile Char.isDigit = rest ∧
      cutInt negative (more ++ rest') = ⟨.token t, rest'⟩ := by
  obtain ⟨piece, left⟩ := Cut.mk.inj h
  obtain ⟨v, read⟩ : ∃ v, (cutInt negative (more ++ rest)).piece =
      if fitsInt v then .token (.int v) else .bad := ⟨_, rfl⟩
  have int : t = .int v := by
    rw [h] at read
    split at read
    next => exact Piece.token.inj read
    next => cases read
  subst int
  have stop := follows.stop left fun ends c hc => not_isDigit_of_not_isWordChar (ends c hc).1
  obtain ⟨digits, left'⟩ := run_again left stop
  refine ⟨left, ?_⟩
  rw [cutInt, digits, left', ← piece]

theorem wordToken_ends {word : String} : (wordToken word).Ends rest ↔
    ∀ c ∈ rest.head?, isWordChar c = false ∧ c ≠ '<' := by
  unfold wordToken
  split <;> rfl

/-- An array type closes itself. Other words go on, unless something ends them. -/
theorem cut_letter_again (letter : Lead.ofChar c = .letter)
    (h : cut c (more ++ rest) = ⟨.token t, rest⟩) (follows : t.Follows rest rest') :
    cut c (more ++ rest') = ⟨.token t, rest'⟩ := by
  have read (cs : List Char) : cut c cs = cutWord (c :: cs) := by simp only [cut, letter]
  have found := h
  rw [read, cutWord] at h
  split at h
  next container behind named opened =>
    obtain ⟨inside, split, mem, -⟩ := cutShaped_matches (congrArg Cut.piece h)
    rw [h] at split
    have whole : c :: (more ++ rest) = container.text.toList ++ '<' :: (inside ++ '>' :: rest) := by
      have word := @List.takeWhile_append_dropWhile _ isWordChar (c :: (more ++ rest))
      rw [opened, split] at word
      rw [← word, ofText?_text named, wordAt, String.toList_ofList]
    have text : c :: more = container.text.toList ++ '<' :: (inside ++ ['>']) := by
      refine List.append_cancel_right (?_ : _ ++ rest = _ ++ rest)
      simpa using whole
    have array (rest : List Char) : cut c (more ++ rest) = ⟨arrayPiece container inside, rest⟩ := by
      obtain ⟨d, cs, start, read⟩ := @cut_array inside rest container mem
      have same : c :: (more ++ rest) = d :: cs := by
        rw [← start, ← List.cons_append, text]
        simp
      obtain ⟨rfl, rfl⟩ := List.cons.inj same
      exact read
    rw [array] at found ⊢
    rw [(Cut.mk.inj found).1]
  next alone =>
    obtain ⟨piece, left⟩ := Cut.mk.inj h
    cases piece
    have taken : (c :: more ++ rest).dropWhile isWordChar = rest := left
    have stop := follows.stop taken fun ends d hd => (wordToken_ends.mp ends d hd).1
    obtain ⟨word, taken'⟩ := run_again taken stop
    rw [read, cutWord]
    split
    next container behind named opened =>
      have bracket : rest' = '<' :: behind := taken'.symm.trans opened
      rcases follows with same | ends
      · rw [bracket, List.head?_cons] at same
        obtain ⟨behind', rfl⟩ := List.head?_eq_some_iff.mp same.symm
        rw [wordAt, ← List.cons_append, word] at named
        exact absurd taken (alone container behind' named)
      · rw [bracket] at ends
        exact absurd rfl (wordToken_ends.mp ends '<' rfl).2
    next => rw [← List.cons_append, wordAt, word, taken', wordAt, List.cons_append]

/-- A token is read again where what follows starts in the same way, or ends the token. -/
theorem cut_token_again (h : cut c (more ++ rest) = ⟨.token t, rest⟩)
    (follows : t.Follows rest rest') : cut c (more ++ rest') = ⟨.token t, rest'⟩ := by
  cases lead : Lead.ofChar c with
  | blank | comment | other => simp [cut, lead] at h
  | newline =>
    simp only [cut, lead] at h ⊢
    obtain ⟨piece, left⟩ := Cut.mk.inj h
    cases piece
    have stop := follows.stop left fun ends d hd => by
      simpa using fun line : d = '\n' => ends (line ▸ hd)
    rw [(run_again left stop).2]
  | quote =>
    simp only [cut, lead] at h ⊢
    exact cutString_again h
  | percent =>
    simp only [cut, lead] at h ⊢
    exact cutValue_again h follows
  | «at» =>
    simp only [cut, lead] at h ⊢
    exact cutSymbol_again h follows
  | minus =>
    simp only [cut, lead] at h ⊢
    split at h
    next digit =>
      obtain ⟨left, again⟩ := cutInt_again h follows
      rw [if_pos (head_again left (fun _ => id) digit), again]
    next => cases h
  | digit =>
    simp only [cut, lead] at h ⊢
    exact (@cutInt_again (c :: more) _ _ _ _ h follows).2
  | letter => exact cut_letter_again lead h follows
  | mark m =>
    simp only [cut, lead, Cut.mk.injEq, Piece.token.injEq] at h ⊢
    obtain ⟨rfl, left⟩ := h
    have none : more = [] := by simpa using left
    simp [none]

end Again

def Piece.token? : Piece → Option Token
  | .token t => some t
  | _ => none

/-- A text is read as these tokens, and nothing in it is no token. -/
def Lexes (cs : List Char) (ts : List Token) : Prop :=
  ∃ pieces, Reads cs [] pieces ∧ .bad ∉ pieces ∧ pieces.filterMap Piece.token? = ts

/-- The lexer comes to where a token starts, and cuts the token off there. -/
def Lexed.Placed (l : Lexed) (start : Nat) (cs : List Char) : Prop :=
  ∃ front text after pieces, cs = front ++ (text ++ after) ∧ Reads front (text ++ after) pieces ∧
    CutsOff text (.token l.token) after ∧
    l.span = ⟨start + byteLength front, start + byteLength front + byteLength text⟩

section Reads

variable {text front after cs rest rest' : List Char} {c : Char} {t : Token} {ts : List Token}
  {piece : Piece} {pieces later : List Piece}

theorem cutsOff_of_cut (made : (cut c (cs ++ rest)).piece = piece)
    (left : (cut c (cs ++ rest)).rest = rest) : CutsOff (c :: cs) piece rest := by
  have eq : Cut.mk (cut c (cs ++ rest)).piece (cut c (cs ++ rest)).rest = ⟨piece, rest⟩ :=
    congr (congrArg Cut.mk made) left
  exact ⟨c, cs, rfl, eq⟩

theorem cutsOff_cut (c : Char) (cs : List Char) :
    ∃ text, c :: cs = text ++ (cut c cs).rest ∧ CutsOff text (cut c cs).piece (cut c cs).rest := by
  obtain ⟨more, split⟩ := cut_suffix c cs
  exact ⟨c :: more, by rw [List.cons_append, split], c, more, rfl, by rw [split]⟩

/-- Every text is read to its end. -/
theorem reads_all : ∀ cs : List Char, ∃ pieces, Reads cs [] pieces
  | [] => ⟨[], .nil []⟩
  | c :: cs => by
    have shorter := (cut_suffix c cs).length_le
    obtain ⟨pieces, read⟩ := reads_all (cut c cs).rest
    obtain ⟨text, split, off⟩ := cutsOff_cut c cs
    rw [split]
    exact ⟨(cut c cs).piece :: pieces, .cons (by rwa [List.append_nil]) read⟩
termination_by cs => cs.length
decreasing_by simp_wf; omega

theorem Reads.append (first : Reads front after pieces) (second : Reads after [] later) :
    Reads (front ++ after) [] (pieces ++ later) := by
  induction first with
  | nil => exact second
  | cons off _ ih =>
    rw [List.append_assoc]
    exact .cons (by rwa [List.append_nil]) (ih second)

theorem Reads.snoc (first : Reads front (text ++ after) pieces) (last : CutsOff text piece after) :
    Reads (front ++ text) after (pieces ++ [piece]) := by
  generalize whole : text ++ after = cs at first
  induction first with
  | nil => simpa using @Reads.cons text [] after piece [] last (.nil after)
  | cons off _ ih =>
    subst whole
    rw [List.append_assoc]
    exact .cons (by rwa [List.append_assoc]) (ih rfl)

/-- The lexer makes tokens of the pieces that are tokens, and reports those that are not. -/
theorem Reads.lexFrom (h : Reads cs [] pieces) (start : Nat) :
    (lexFrom start cs).tokens.map Lexed.token = pieces.filterMap Piece.token? ∧
      ((Staging.lexFrom start cs).bad = [] ↔ .bad ∉ pieces) := by
  generalize none : [] = after at h
  induction h generalizing start with
  | nil => simp [Staging.lexFrom]
  | @cons text front after piece pieces off _ ih =>
    subst none
    obtain ⟨c, more, rfl, read⟩ := off
    rw [List.append_nil] at read
    cases piece with
    | token t =>
      obtain ⟨span, eq⟩ := @lexFrom_of_cut _ start _ _ _ read
      obtain ⟨tokens, bad⟩ := ih span.stop rfl
      rw [List.cons_append, eq]
      exact ⟨by simp [Lexing.addToken, Piece.token?, tokens], by simpa [Lexing.addToken] using bad⟩
    | blank =>
      obtain ⟨stop, eq⟩ := @lexFrom_of_blank start _ _ _ read
      obtain ⟨tokens, bad⟩ := ih stop rfl
      rw [List.cons_append, eq]
      exact ⟨tokens, by simpa using bad⟩
    | bad =>
      obtain ⟨span, eq⟩ := @lexFrom_of_bad start _ _ _ _ List.cons_append.symm read
      obtain ⟨tokens, -⟩ := ih span.stop rfl
      rw [List.cons_append, eq]
      exact ⟨tokens, by simp [Lexing.addBad]⟩

theorem lexes_iff (start : Nat) : Lexes cs ts ↔
    (lexFrom start cs).bad = [] ∧ (lexFrom start cs).tokens.map Lexed.token = ts := by
  constructor
  · rintro ⟨pieces, read, good, rfl⟩
    obtain ⟨tokens, bad⟩ := read.lexFrom start
    exact ⟨bad.mpr good, tokens⟩
  · rintro ⟨none, rfl⟩
    obtain ⟨pieces, read⟩ := reads_all cs
    obtain ⟨tokens, bad⟩ := read.lexFrom start
    exact ⟨pieces, read, bad.mp none, tokens.symm⟩

theorem Lexed.Placed.behind {l : Lexed} {start : Nat} (split : cs = text ++ rest)
    (off : CutsOff text piece rest) (h : l.Placed (start + byteLength text) rest) :
    l.Placed start cs := by
  obtain ⟨front, taken, after, pieces, rfl, read, off', span⟩ := h
  refine ⟨text ++ front, taken, after, piece :: pieces, ?_, .cons off read, off', ?_⟩
  · rw [split, List.append_assoc]
  · rw [span, byteLength_append, Nat.add_assoc start]

/-- Every token of a text is cut off at a place that the lexer comes to. -/
theorem lexFrom_placed (start : Nat) (cs : List Char) :
    ∀ l ∈ (lexFrom start cs).tokens, l.Placed start cs := by
  have taken (c : Char) (cs : List Char) : CutsOff
      ((c :: cs).take ((c :: cs).length - (cut c cs).rest.length)) (cut c cs).piece
      (cut c cs).rest := by
    obtain ⟨text, split, off⟩ := cutsOff_cut c cs
    rwa [take_of_append split]
  fun_induction lexFrom start cs with
  | case1 => simp
  | case2 start c cs _ text span later token piece ih =>
    intro l hl
    rcases List.mem_cons.mp hl with rfl | hl
    · exact ⟨[], text, _, [], split_cut c cs, .nil _, piece ▸ taken c cs, rfl⟩
    · exact (ih l hl).behind (split_cut c cs) (taken c cs)
  | case3 start c cs _ text span later piece ih =>
    exact fun l hl => (ih l hl).behind (split_cut c cs) (taken c cs)
  | case4 start c cs _ text span later piece ih =>
    exact fun l hl => (ih l hl).behind (split_cut c cs) (taken c cs)

/-- A text without bad pieces is read as the tokens in front of a place and those behind it. -/
theorem Reads.lexes (place : Reads front after pieces) (h : Lexes (front ++ after) ts) :
    .bad ∉ pieces ∧ ∃ us, ts = pieces.filterMap Piece.token? ++ us ∧ Lexes after us := by
  obtain ⟨later, rest⟩ := reads_all after
  obtain ⟨tokens, bad⟩ := (place.append rest).lexFrom 0
  obtain ⟨none, rfl⟩ := (lexes_iff 0).mp h
  obtain ⟨good, fine⟩ := not_or.mp (List.mem_append.not.mp (bad.mp none))
  exact ⟨good, _, by rw [tokens, List.filterMap_append], later, rest, fine, rfl⟩

theorem cutsOff_blank : CutsOff text .blank rest ↔ Blank text rest := by
  constructor
  · rintro ⟨c, more, rfl, read⟩
    have left := congrArg Cut.rest read
    have split : c :: (more ++ rest) = c :: more ++ (cut c (more ++ rest)).rest := by rw [left]; rfl
    have blank := cut_blank (congrArg Cut.piece read) split
    rwa [left] at blank
  · rintro (⟨c, rfl, blank⟩ | ⟨inside, rfl, none, ends⟩)
    · refine ⟨c, [], rfl, ?_⟩
      rcases blank with rfl | rfl | rfl <;> rfl
    · refine ⟨'#', inside, rfl, ?_⟩
      have stop : ∀ d ∈ rest.head?, decide (d ≠ '\n') = false := by simpa using ends
      have all : ∀ d ∈ inside, decide (d ≠ '\n') = true := fun d hd => by
        simpa using fun line : d = '\n' => none (line ▸ hd)
      have lead : Lead.ofChar '#' = .comment := rfl
      simp only [cut, lead, dropWhile_run all stop]

/-- A line end takes all line ends that follow. -/
theorem cutsOff_newline : CutsOff text (.token .newline) rest ↔
    text ≠ [] ∧ (∀ c ∈ text, c = '\n') ∧ rest.head? ≠ some '\n' := by
  constructor
  · rintro ⟨c, more, rfl, read⟩
    obtain ⟨taken, split, matched⟩ := cut_matches (congrArg Cut.piece read)
    rw [read] at split
    obtain rfl : c :: more = taken := List.append_cancel_right split
    have all : ∀ d ∈ c :: more, d = '\n' := by simpa using (mem_some.mp matched).2
    obtain rfl : c = '\n' := all c List.mem_cons_self
    have left : (more ++ rest).dropWhile (· = '\n') = rest := congrArg Cut.rest read
    refine ⟨List.cons_ne_nil _ _, all, fun line => ?_⟩
    simpa using (run_of_dropWhile left).2 '\n' line
  · rintro ⟨some, all, stop⟩
    obtain ⟨c, more, rfl⟩ := List.exists_cons_of_ne_nil some
    obtain ⟨rfl, later⟩ := List.forall_mem_cons.mp all
    rw [List.eq_replicate_of_mem later]
    exact ⟨'\n', _, rfl, cut_newline stop _⟩

/-- Behind a piece, what starts in the same way is as good. -/
theorem CutsOff.again (h : CutsOff text piece rest) (good : piece ≠ .bad)
    (same : rest'.head? = rest.head?) : CutsOff text piece rest' := by
  cases piece with
  | token t =>
    obtain ⟨c, more, rfl, read⟩ := h
    exact ⟨c, more, rfl, cut_token_again read (.inl same)⟩
  | blank =>
    rw [cutsOff_blank] at h ⊢
    rcases h with one | ⟨inside, rfl, none, ends⟩
    · exact .inl one
    · exact .inr ⟨inside, rfl, none, by rwa [same]⟩
  | bad => exact absurd rfl good

/-- What is read of a text is read of its first piece and of the rest. -/
theorem lexes_cons (off : CutsOff text piece rest) (good : piece ≠ .bad) :
    Lexes (text ++ rest) ts ↔ ∃ us, ts = piece.token?.toList ++ us ∧ Lexes rest us := by
  obtain ⟨c, more, rfl, read⟩ := off
  rw [List.cons_append, lexes_iff 0]
  cases piece with
  | token t =>
    obtain ⟨span, eq⟩ := @lexFrom_of_cut _ 0 _ _ _ read
    simp only [eq, Lexing.addToken, Piece.token?, Option.toList_some, List.map_cons,
      lexes_iff span.stop, List.cons_append, List.nil_append]
    constructor
    · rintro ⟨bad, rfl⟩
      exact ⟨_, rfl, bad, rfl⟩
    · rintro ⟨us, rfl, bad, rfl⟩
      exact ⟨bad, rfl⟩
  | blank =>
    obtain ⟨stop, eq⟩ := @lexFrom_of_blank 0 _ _ _ read
    simp [eq, Piece.token?, lexes_iff stop]
  | bad => exact absurd rfl good

/-- A line end takes in the line ends that follow. -/
theorem lexes_lines (some : text ≠ []) (all : ∀ c ∈ text, c = '\n') : Lexes (text ++ cs) ts ↔
    ∃ us, ts = .newline :: us ∧ Lexes (cs.dropWhile (· = '\n')) us := by
  have off : CutsOff (text ++ cs.takeWhile (· = '\n')) (.token .newline)
      (cs.dropWhile (· = '\n')) := by
    refine cutsOff_newline.mpr
      ⟨by simp [some], List.forall_mem_append.mpr ⟨all, ?_⟩, fun line => ?_⟩
    · exact fun c hc => by simpa using List.mem_takeWhile_imp hc
    · have stop := List.head?_dropWhile_not (· = '\n') cs
      rw [line] at stop
      simp at stop
  have whole := @lexes_cons _ _ ts _ off nofun
  rwa [List.append_assoc, List.takeWhile_append_dropWhile] at whole

/-- A comment takes in what follows on its line. -/
theorem lexes_comment {inside : List Char} (none : '\n' ∉ inside) :
    Lexes ('#' :: inside ++ cs) ts ↔ Lexes (cs.dropWhile (· ≠ '\n')) ts := by
  have off : CutsOff ('#' :: (inside ++ cs.takeWhile (· ≠ '\n'))) .blank
      (cs.dropWhile (· ≠ '\n')) := by
    refine cutsOff_blank.mpr (.inr ⟨_, rfl, fun line => ?_, fun c hc => ?_⟩)
    · rcases List.mem_append.mp line with line | line
      · exact none line
      · simpa using List.mem_takeWhile_imp line
    · have stop := List.head?_dropWhile_not (· ≠ '\n') cs
      rw [Option.mem_def.mp hc] at stop
      simpa using stop
  have whole := @lexes_cons _ _ ts _ off nofun
  rw [List.cons_append, List.append_assoc, List.takeWhile_append_dropWhile] at whole
  simpa [Piece.token?] using whole

end Reads

section Resume

variable {P : List Token → Prop} {text front after after' : List Char} {piece : Piece}
  {pieces : List Piece}

/-- A text may stand in another's place behind some pieces: it is read as `P` says, also without
what a line end in front takes from it, and without what a comment in front takes from it. -/
structure Resumes (P : List Token → Prop) (after after' : List Char) : Prop where
  start : after'.head? = after.head? ∨ ∀ t : Token, t ≠ .newline → t.Ends after'
  here : ∃ ts, P ts ∧ Lexes after' ts
  line : after.head? ≠ some '\n' → after'.head? = some '\n' →
    ∃ ts, P ts ∧ Lexes (after'.dropWhile (· = '\n')) ts
  comment : (∀ c ∈ after.head?, c = '\n') →
    ∃ ts, P ts ∧ Lexes (after'.dropWhile (· ≠ '\n')) ts

theorem Token.ends_of_head {t : Token} (other : t ≠ .newline)
    (head : ∀ c ∈ after.head?, isWordChar c = false ∧ c ≠ '<') : t.Ends after := by
  cases t with
  | newline => exact absurd rfl other
  | mark | shaped | string => trivial
  | keyword | int | value | symbol | ident => exact head

theorem CutsOff.resume (off : CutsOff text piece after) (good : piece ≠ .bad)
    (h : Resumes P after after') :
    ∃ ts, P ts ∧ Lexes (text ++ after') (piece.token?.toList ++ ts) := by
  have kept (off : CutsOff text piece after') :
      ∃ ts, P ts ∧ Lexes (text ++ after') (piece.token?.toList ++ ts) := by
    obtain ⟨ts, holds, read⟩ := h.here
    exact ⟨ts, holds, (lexes_cons off good).mpr ⟨ts, rfl, read⟩⟩
  cases piece with
  | bad => exact absurd rfl good
  | blank =>
    rcases cutsOff_blank.mp off with ⟨c, one, blank⟩ | ⟨inside, rfl, none, ends⟩
    · exact kept (cutsOff_blank.mpr (.inl ⟨c, one, blank⟩))
    · obtain ⟨ts, holds, read⟩ := h.comment ends
      exact ⟨ts, holds, (lexes_comment none).mpr read⟩
  | token t =>
    by_cases same : after'.head? = after.head?
    · exact kept (off.again good same)
    have ends := h.start.resolve_left same
    by_cases newline : t = .newline
    · subst newline
      obtain ⟨some, all, stop⟩ := cutsOff_newline.mp off
      by_cases line : after'.head? = .some '\n'
      · obtain ⟨ts, holds, read⟩ := h.line stop line
        exact ⟨ts, holds, (lexes_lines some all).mpr ⟨ts, rfl, read⟩⟩
      · exact kept (cutsOff_newline.mpr ⟨some, all, line⟩)
    · obtain ⟨c, more, rfl, read⟩ := off
      exact kept ⟨c, more, rfl, cut_token_again read (.inr (ends t newline))⟩

theorem Reads.eq_nil (h : Reads [] after pieces) : pieces = [] := by
  generalize none : [] = front at h
  cases h with
  | nil => rfl
  | cons off =>
    obtain ⟨c, more, rfl, -⟩ := off
    cases none

/-- What stands in front of a text is read as before with another text in its place. -/
theorem Reads.resume (read : Reads front after pieces) (good : .bad ∉ pieces)
    (h : Resumes P after after') :
    ∃ ts, P ts ∧ Lexes (front ++ after') (pieces.filterMap Piece.token? ++ ts) := by
  induction read with
  | nil => exact h.here
  | @cons text front after piece pieces off read ih =>
    have fine : piece ≠ .bad := fun bad => good (bad ▸ List.mem_cons_self)
    have split : (piece :: pieces).filterMap Piece.token? =
        piece.token?.toList ++ pieces.filterMap Piece.token? := by cases piece <;> rfl
    rw [split, List.append_assoc]
    -- The other pieces have the same text behind them as before, up to its first character.
    cases front with
    | nil =>
      obtain rfl := read.eq_nil
      simpa using off.resume fine h
    | cons c front =>
      obtain ⟨ts, holds, rest⟩ := ih (fun bad => good (List.mem_cons_of_mem _ bad)) h
      refine ⟨ts, holds, ?_⟩
      rw [List.append_assoc]
      have again : CutsOff text piece (c :: front ++ after') := off.again fine rfl
      exact (lexes_cons again fine).mpr ⟨_, rfl, rest⟩

end Resume

end Staging

/-
# Where highlighting cuts

Highlighting outside strings takes whole items, and a reader does so too; within a string
highlighting takes runs, and a reader looks for the closing quote.  **Whatever is at the front of a
text, highlighting marks what the reader finds there** and goes on after it.

What is compared are not pieces but marks (`Mark`): the parentheses, tokens and comments that pieces
stand for, each with its offset and its text, once the pieces of every string are put together.
Blanks mark nothing.  So it does not matter that highlighting takes all blanks in a row as one
piece, where a reader passes them one by one; a piece that is a run is, but for its first character,
the piece of the rest of the run (`piecesFrom_run`), and both mark the same.

`Cuts` says what is marked between two places of a text, and that no character between them fits
nowhere.  It holds whatever the character before the place is, since that decides only between kinds
of items; and it is transitive, so a text is gone through one thing after another.  There is one
lemma for each thing that can stand at the front, and a place may lie within a string, which is then
open.

* `Mark`, `marksOf`: what pieces mark, whether they are cut in one or not.
* `errorsOf`: the pieces of characters that fit nowhere.
* `Cuts.piece`, `Cuts.whole`: one piece outside strings, which the lemmas for what can stand there
  come down to.
* `Cuts.string`, `Cuts.token`: **a string ends at the same quote, and a token where the reader finds
  its end.**

The lemma for strings is an induction on the reader's rule, with one of the lemmas for a place
within a string in each case.
-/
import IndentLisp.Proofs.Highlight.Items
import IndentLisp.Proofs.Highlight.Pieces

namespace IndentLisp

/-! ## 1. Marks -/

/-- What matters of a text: a parenthesis or a token, or a comment.  Blanks and line ends do not,
and this is what makes two ways of cutting comparable. -/
inductive Mark where
  | item (text : String)
  | comment (text : String)
deriving DecidableEq, Repr

namespace Highlight

/-- What a piece marks, and where. -/
def Piece.mark? (p : Piece) : Option (Nat × Mark) :=
  match p.kind with
  | .text => none
  | .comment => some (p.offset, .comment p.text)
  | _ => some (p.offset, .item p.text)

/-- A piece with more characters. -/
def Piece.add (p : Piece) (ds : List Char) : Piece :=
  { p with text := p.text ++ String.ofList ds }

theorem Piece.add_add (p : Piece) (ds es : List Char) : (p.add ds).add es = p.add (ds ++ es) := by
  simp only [add, String.append_assoc, String.ofList_append]

/-- What pieces mark, with the strings among them put together after the front of an open one.  The
offset of a mark is that of its first piece. -/
def marksOf (o : Option Piece) (ps : List Piece) : List (Nat × Mark) :=
  (glue o ps).filterMap Piece.mark?

/-- The pieces of characters that fit nowhere. -/
def errorsOf (ps : List Piece) : List Piece :=
  ps.filter (·.kind = .error)

section Marks

variable {p q : Piece} {ps : List Piece}

theorem isQuote_of_kind (h : p.kind ≠ .string) : p.isQuote = false := by
  simp [Piece.isQuote, h]

theorem marksOf_cons (h : p.kind ≠ .string) (ps : List Piece) :
    marksOf none (p :: ps) = p.mark?.toList ++ marksOf none ps := by
  rw [marksOf, glue, if_neg (by simp [isQuote_of_kind h]), List.filterMap_cons]
  cases p.mark? <;> rfl

theorem marksOf_open (h : q.isQuote = true) (ps : List Piece) :
    marksOf none (q :: ps) = marksOf (some q) ps := by
  rw [marksOf, glue, if_pos h, marksOf]

theorem marksOf_inside (h : q.isQuote = false) (p : Piece) (ps : List Piece) :
    marksOf (some p) (q :: ps) = marksOf (some (p.join q)) ps := by
  rw [marksOf, glue, if_neg (by simp [h]), marksOf]

theorem marksOf_close (hp : p.kind = .string) (h : q.isQuote = true) (ps : List Piece) :
    marksOf (some p) (q :: ps) = (p.offset, .item (p.text ++ q.text)) :: marksOf none ps := by
  rw [marksOf, glue, if_pos h, List.filterMap_cons]
  simp only [Piece.join, Piece.mark?, hp, marksOf]

/-- Characters within a string, none of which is a quote. -/
theorem marksOf_run {ds : List Char} (h : ∀ d ∈ ds, d ≠ '"') (p : Piece) (offset : Nat)
    (ps : List Piece) :
    marksOf (some p) (⟨offset, .string, String.ofList ds⟩ :: ps) =
      marksOf (some (p.add ds)) ps := by
  refine marksOf_inside ?_ p ps
  have hne : String.ofList ds ≠ "\"" := by
    intro he
    have hds : ds = ['"'] := String.toList_ofList.symm.trans (congrArg String.toList he)
    exact h '"' (by rw [hds]; exact List.mem_cons_self) rfl
  simp [Piece.isQuote, hne]

theorem errorsOf_cons (h : p.kind ≠ .error) (ps : List Piece) :
    errorsOf (p :: ps) = errorsOf ps := by
  rw [errorsOf, List.filter_cons_of_neg (by simpa using h), errorsOf]

end Marks

/-! ## 2. Runs -/

theorem run_cons {p : Char → Bool} {c : Char} (hc : p c = true) (cs : List Char) :
    run p (c :: cs) = run p cs + 1 := by
  rw [run, List.takeWhile_cons_of_pos hc, List.length_cons, run]

theorem run_le (p : Char → Bool) (cs : List Char) : run p cs ≤ cs.length :=
  (List.takeWhile_sublist p).length_le

/-- **A piece that is a run of characters is, but for its first character, the piece of the rest of
the run**, if there is one.  It holds of blanks and of the characters within a string, and lets both
be passed one character at a time. -/
theorem piecesFrom_run {p : Char → Bool} (mode : Mode) (kind : Kind)
    (hfront : ∀ before d ds, p d = true →
      frontPiece mode before d ds = (kind, run p (d :: ds), mode))
    {c : Char} (hc : p c = true) (before : Option Char) (offset : Nat) (cs : List Char) :
    ∃ more rest before', (∀ d ∈ more, p d = true) ∧
      piecesFrom mode before offset (c :: cs) = ⟨offset, kind, String.ofList (c :: more)⟩ :: rest ∧
      (more = [] ∧ piecesFrom mode before' (offset + 1) cs = rest ∨
        piecesFrom mode before' (offset + 1) cs =
          ⟨offset + 1, kind, String.ofList more⟩ :: rest) := by
  have hcons : ∀ b o d ds, p d = true → piecesFrom mode b o (d :: ds) =
      ⟨o, kind, String.ofList ((d :: ds).take (run p (d :: ds)))⟩ ::
        piecesFrom mode ((d :: ds).take (run p (d :: ds))).getLast? (o + run p (d :: ds))
          ((d :: ds).drop (run p (d :: ds))) := fun b o d ds hd =>
    piecesFrom_cons (hfront b d ds hd) (by rw [run_cons hd]; exact Nat.succ_pos _) (run_le p _) o
  have hrun : ∀ d ∈ cs.take (run p cs), p d = true := by
    rw [run, take_takeWhile]
    exact fun d hd => List.all_eq_true.mp List.all_takeWhile d hd
  rw [hcons before offset c cs hc, run_cons hc, List.take_succ_cons, List.drop_succ_cons]
  refine ⟨_, _, if run p cs = 0 then some c else none, hrun, rfl, ?_⟩
  cases cs with
  | nil => exact Or.inl ⟨rfl, by simp⟩
  | cons d ds =>
    by_cases hd : p d = true
    · refine Or.inr ?_
      rw [hcons _ (offset + 1) d ds hd, Nat.add_assoc, Nat.add_comm 1, run_cons hd,
        List.take_succ_cons, List.getLast?_cons_cons]
    · have h0 : run p (d :: ds) = 0 := by
        rw [run, List.takeWhile_cons_of_neg hd, List.length_nil]
      rw [h0]
      exact Or.inl ⟨rfl, rfl⟩

/-! ## 3. Cuts -/

/-- A place in a text that is highlighted: the front of the string that is open there, if one is,
the offset, and what is left of the text. -/
structure View where
  open? : Option Piece
  offset : Nat
  ahead : List Char

/-- The pieces of what is left, after a character. -/
def View.pieces (v : View) (before : Option Char) : List Piece :=
  piecesFrom (if v.open?.isSome then .inString else .outside) before v.offset v.ahead

/-- Between two places some marks are set, and no character fits nowhere.  The character before a
place may be any, since it depends on it only which kind an item is. -/
def Cuts (v : View) (xs : List (Nat × Mark)) (w : View) : Prop :=
  ∀ before, ∃ before',
    marksOf v.open? (v.pieces before) = xs ++ marksOf w.open? (w.pieces before') ∧
    errorsOf (v.pieces before) = errorsOf (w.pieces before')

namespace Cuts

variable {u v w : View} {xs ys : List (Nat × Mark)} {p : Piece} {offset n : Nat} {c : Char}
    {cs : List Char}

theorem refl (v : View) : Cuts v [] v :=
  fun before => ⟨before, rfl, rfl⟩

theorem trans (h : Cuts u xs v) (h' : Cuts v ys w) : Cuts u (xs ++ ys) w := by
  intro before
  obtain ⟨before', hm, he⟩ := h before
  obtain ⟨before'', hm', he'⟩ := h' before'
  exact ⟨before'', by rw [hm, hm', List.append_assoc], he.trans he'⟩

/-- One piece outside strings, which is no part of a string and no error.  It marks what it marks by
itself, whatever the character before it. -/
theorem piece (hpos : 0 < n) (hle : n ≤ cs.length + 1)
    (h : ∀ before, ∃ kind, frontPiece .outside before c cs = (kind, n, .outside) ∧ kind ≠ .string ∧
      kind ≠ .error ∧
        (⟨offset, kind, String.ofList ((c :: cs).take n)⟩ : Piece).mark?.toList = xs) :
    Cuts ⟨none, offset, c :: cs⟩ xs ⟨none, offset + n, (c :: cs).drop n⟩ := by
  intro before
  obtain ⟨kind, hfront, hstring, herror, rfl⟩ := h before
  have hcons := piecesFrom_cons hfront hpos hle offset
  refine ⟨((c :: cs).take n).getLast?, ?_, ?_⟩
  · exact (congrArg (marksOf none) hcons).trans (marksOf_cons hstring _)
  · exact (congrArg errorsOf hcons).trans (errorsOf_cons herror _)

/-- A piece that is a parenthesis or a token by itself.  It marks its text as an item, whichever of
these kinds it is of. -/
theorem whole (hpos : 0 < n) (hle : n ≤ cs.length + 1)
    (h : ∀ before, ∃ kind, frontPiece .outside before c cs = (kind, n, .outside) ∧
      kind.isWhole = true) :
    Cuts ⟨none, offset, c :: cs⟩ [(offset, .item (String.ofList ((c :: cs).take n)))]
      ⟨none, offset + n, (c :: cs).drop n⟩ := by
  refine piece hpos hle ?_
  intro before
  obtain ⟨kind, hfront, hk⟩ := h before
  refine ⟨kind, hfront, ?_⟩
  cases kind <;> simp [Kind.isWhole, Piece.mark?] at hk ⊢

theorem comment (offset : Nat) (cs : List Char) :
    Cuts ⟨none, offset, ';' :: cs⟩
      [(offset, .comment (String.ofList ((';' :: cs).take (lineLength (';' :: cs)))))]
      ⟨none, offset + lineLength (';' :: cs), (';' :: cs).drop (lineLength (';' :: cs))⟩ :=
  piece (by rw [lineLength_comment]; exact Nat.succ_pos _) (run_le _ (';' :: cs)) fun _ =>
    ⟨.comment, rfl, by decide, by decide, rfl⟩

theorem parenthesis (hc : c = '(' ∨ c = ')') (offset : Nat) (cs : List Char) :
    Cuts ⟨none, offset, c :: cs⟩ [(offset, .item (String.ofList [c]))] ⟨none, offset + 1, cs⟩ :=
  whole Nat.one_pos (Nat.le_add_left 1 _) fun _ =>
    ⟨.punctuation, by rcases hc with rfl | rfl <;> rfl, rfl⟩

/-- Blanks mark nothing, one by one. -/
theorem blank (hc : isBlank c = true) (offset : Nat) (cs : List Char) :
    Cuts ⟨none, offset, c :: cs⟩ [] ⟨none, offset + 1, cs⟩ := by
  intro before
  obtain ⟨more, rest, before', -, hpieces, hrest⟩ :=
    piecesFrom_run .outside .text
      (fun before d ds hd => by simp only [frontPiece, hd, if_true]) hc before offset cs
  have hskip : ∀ (o : Nat) (s : String) (ps : List Piece),
      marksOf none (⟨o, .text, s⟩ :: ps) = marksOf none ps ∧
      errorsOf (⟨o, .text, s⟩ :: ps) = errorsOf ps :=
    fun o s ps => ⟨marksOf_cons (by simp) ps, errorsOf_cons (by simp) ps⟩
  refine ⟨before', ?_⟩
  simp only [View.pieces, Option.isSome_none, if_false, List.nil_append, Bool.false_eq_true]
  rw [hpieces]
  rcases hrest with ⟨-, hrest⟩ | hrest
  · rw [hrest]
    exact hskip _ _ _
  · rw [hrest, (hskip _ _ _).1, (hskip _ _ _).2, (hskip _ _ _).1, (hskip _ _ _).2]
    exact ⟨rfl, rfl⟩

theorem blanks {gaps : List Char} (h : ∀ c ∈ gaps, isBlank c = true) (offset : Nat)
    (cs : List Char) :
    Cuts ⟨none, offset, gaps ++ cs⟩ [] ⟨none, offset + gaps.length, cs⟩ := by
  induction gaps generalizing offset with
  | nil => exact refl _
  | cons c gaps ih =>
    have hrest := ih (fun d hd => h d (List.mem_cons_of_mem _ hd)) (offset + 1)
    rw [Nat.add_assoc, Nat.add_comm 1] at hrest
    exact (blank (h c List.mem_cons_self) offset (gaps ++ cs)).trans hrest

/-- The quote that opens a string. -/
theorem opens (offset : Nat) (cs : List Char) :
    Cuts ⟨none, offset, '"' :: cs⟩ [] ⟨some ⟨offset, .string, "\""⟩, offset + 1, cs⟩ := by
  intro before
  have hfront : frontPiece .outside before '"' cs = (.string, 1, .inString) := rfl
  have hcons : piecesFrom .outside before offset ('"' :: cs) =
      ⟨offset, .string, "\""⟩ :: piecesFrom .inString (some '"') (offset + 1) cs :=
    piecesFrom_cons hfront Nat.one_pos (Nat.le_add_left 1 _) offset
  refine ⟨some '"', ?_, ?_⟩
  · exact (congrArg (marksOf none) hcons).trans (marksOf_open rfl _)
  · exact (congrArg errorsOf hcons).trans (errorsOf_cons (by simp) _)

/-- The quote that closes it. -/
theorem closes (hp : p.kind = .string) (offset : Nat) (cs : List Char) :
    Cuts ⟨some p, offset, '"' :: cs⟩ [(p.offset, .item (p.text ++ "\""))]
      ⟨none, offset + 1, cs⟩ := by
  intro before
  have hfront : frontPiece .inString before '"' cs = (.string, 1, .outside) := rfl
  have hcons : piecesFrom .inString before offset ('"' :: cs) =
      ⟨offset, .string, "\""⟩ :: piecesFrom .outside (some '"') (offset + 1) cs :=
    piecesFrom_cons hfront Nat.one_pos (Nat.le_add_left 1 _) offset
  refine ⟨some '"', ?_, ?_⟩
  · exact (congrArg (marksOf (some p)) hcons).trans (marksOf_close hp rfl _)
  · exact (congrArg errorsOf hcons).trans (errorsOf_cons (by simp) _)

/-- A piece within a string. -/
theorem escape (hc : c ≠ '\n') (p : Piece) (offset : Nat) (cs : List Char) :
    Cuts ⟨some p, offset, '\\' :: c :: cs⟩ []
      ⟨some (p.add ['\\', c]), offset + 2, cs⟩ := by
  intro before
  have hfront : frontPiece .inString before '\\' (c :: cs) = (.escape, 2, .inString) := by
    simp [frontPiece, hc]
  have hcons := piecesFrom_cons hfront (by decide) (Nat.le_add_left 2 _) offset
  refine ⟨some c, ?_, ?_⟩
  · exact (congrArg (marksOf (some p)) hcons).trans (marksOf_inside (isQuote_of_kind (by simp)) p _)
  · exact (congrArg errorsOf hcons).trans (errorsOf_cons (by simp) _)

/-- Any other character within a string. -/
theorem within (hc : c ≠ '"' ∧ c ≠ '\\') (p : Piece) (offset : Nat) (cs : List Char) :
    Cuts ⟨some p, offset, c :: cs⟩ []
      ⟨some (p.add [c]), offset + 1, cs⟩ := by
  intro before
  obtain ⟨more, rest, before', hmore, hpieces, hrest⟩ :=
    piecesFrom_run (p := fun d => decide (d ≠ '"' ∧ d ≠ '\\')) .inString .string
      (fun before d ds hd => by
        have hd : d ≠ '"' ∧ d ≠ '\\' := by simpa using hd
        simp only [frontPiece, hd.1, hd.2, if_false]) (by simpa using hc) before offset cs
  have hmore : ∀ d ∈ more, d ≠ '"' := fun d hd => (of_decide_eq_true (hmore d hd)).1
  have hone : ∀ d ∈ [c], d ≠ '"' := fun d hd => List.mem_singleton.mp hd ▸ hc.1
  have hall : ∀ d ∈ c :: more, d ≠ '"' := by
    intro d hd
    rcases List.mem_cons.mp hd with rfl | hd
    · exact hc.1
    · exact hmore d hd
  have herror : ∀ (o : Nat) (s : String) (ps : List Piece),
      errorsOf (⟨o, .string, s⟩ :: ps) = errorsOf ps :=
    fun o s ps => errorsOf_cons (by simp) ps
  refine ⟨before', ?_⟩
  simp only [View.pieces, Option.isSome_some, if_true, List.nil_append]
  rw [hpieces, herror]
  rcases hrest with ⟨rfl, hrest⟩ | hrest
  · rw [hrest]
    exact ⟨marksOf_run hone p offset rest, rfl⟩
  · rw [hrest, herror, marksOf_run hall, marksOf_run hmore, Piece.add_add]
    exact ⟨rfl, rfl⟩

/-- **A string ends at the same quote**: the rest of an open one is cut as the reader finds it.  The
induction is on the reader's rule: a quote, an escape, or any other character. -/
theorem string {read : Nat} (h : Token.stringLength? read cs = some n) (hp : p.kind = .string)
    (offset : Nat) :
    Cuts ⟨some p, offset, cs⟩ [(p.offset, .item (p.text ++ String.ofList (cs.take (n - read))))]
      ⟨none, offset + (n - read), cs.drop (n - read)⟩ := by
  have hbounds := (Token.stringLength?_bounds h).1
  fun_induction Token.stringLength? read cs generalizing p offset with
  | case1 => cases h
  | case2 read cs =>
    cases h
    rw [Nat.add_sub_cancel_left]
    exact closes hp offset cs
  | case3 => cases h
  | case4 read c cs hc ih =>
    have hlt := (Token.stringLength?_bounds h).1
    have hrest := (escape hc p offset cs).trans (ih h (p := p.add ['\\', c]) hp (offset + 2) hlt)
    rw [Piece.add, String.append_assoc, ← String.ofList_append, Nat.add_assoc] at hrest
    rw [show n - read = n - (read + 2) + 1 + 1 by omega]
    rw [show 2 + (n - (read + 2)) = n - (read + 2) + 1 + 1 by omega] at hrest
    exact hrest
  | case5 read c cs hq hb ih =>
    have hlt := (Token.stringLength?_bounds h).1
    have hc : c ≠ '\\' := by
      rintro rfl
      cases cs with
      | nil => cases h
      | cons d ds => exact hb d ds rfl rfl
    have hrest := (within ⟨fun e => hq e, hc⟩ p offset cs).trans
        (ih h (p := p.add [c]) hp (offset + 1) hlt)
    rw [Piece.add, String.append_assoc, ← String.ofList_append, Nat.add_assoc] at hrest
    rw [show n - read = n - (read + 1) + 1 by omega]
    rw [show 1 + (n - (read + 1)) = n - (read + 1) + 1 by omega] at hrest
    exact hrest

/-- **A token is cut as the reader finds it.**  A string is opened and then cut as its rule says; a
character token is one piece by the same rule; and anything else is a whole symbol. -/
theorem token (hs : PlainlySpaced (c :: cs)) (hc : Token.isStart c = true)
    (h : Token.length? (c :: cs) = some n) (offset : Nat) :
    Cuts ⟨none, offset, c :: cs⟩ [(offset, .item (String.ofList ((c :: cs).take n)))]
      ⟨none, offset + n, (c :: cs).drop n⟩ := by
  obtain ⟨h1, h2, h3, h4, h5, h6⟩ := Token.isStart_iff.mp hc
  have hpos := Token.length?_pos h
  have hle : n ≤ cs.length + 1 := Token.length?_le h
  have hblank : isBlank c = false := by
    cases hb : isBlank c with
    | false => rfl
    | true =>
      rcases hs c List.mem_cons_self hb with hb | hb | hb
      · exact absurd hb h3
      · exact absurd hb h4
      · exact absurd hb h5
  by_cases hq : c = '"'
  · subst hq
    have h : Token.stringLength? 1 cs = some n := h
    obtain ⟨n, rfl⟩ := Nat.exists_eq_add_one_of_ne_zero (Nat.ne_of_gt hpos)
    have hrest := (opens offset cs).trans (string h rfl (offset + 1))
    have htext : "\"" ++ String.ofList (cs.take n) = String.ofList (('"' :: cs).take (n + 1)) := by
      rw [List.take_succ_cons, ← List.singleton_append, String.ofList_append]
    rw [Nat.add_sub_cancel, Nat.add_assoc, Nat.add_comm 1, htext] at hrest
    exact hrest
  · refine whole hpos hle ?_
    intro before
    by_cases hq' : c = '\''
    · subst hq'
      have h : Token.characterLength? cs = some n := h
      exact ⟨.character, by simp [frontPiece, hblank, h], rfl⟩
    · have h : Token.symbolLength? (c :: cs) = some n := by
        simpa [Token.length?, Token.Rule.ofChar, hq, hq'] using h
      have hn : n = ((c :: cs).takeWhile (!Token.isDelimiter ·)).length := by
        simp only [Token.symbolLength?] at h
        split at h
        · cases h
        · rename_i k hk
          rw [hk]
          exact (Option.some.inj h).symm
      obtain ⟨hk, hlen⟩ := length_frontItem before hs
      rw [← hn] at hlen
      refine ⟨_, ?_, hk⟩
      simp [frontPiece, hblank, h1, h2, h6, hq, hq', hlen]

end Cuts

end Highlight

end IndentLisp

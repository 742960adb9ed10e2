/-
# Colour adds escape sequences only

An escape sequence is a bracket behind an escape character, some marks, and a final character
(`afterSequence?`).  Removing the sequences from a text need not go piece by piece: a text can end
in the front of a sequence, and what follows then decides whether there is one.  So it is not enough
that an ink is removed as a whole; it has to be removed wherever it stands.  Two things make removal
go piece by piece.

* A text is `Closed` if no end of it is the front of a sequence.  It can be followed by anything.
* A line feed or an escape character is no part of a sequence that has begun.  It can follow
  anything (`Breaks`).

So **a line without its escape sequences is the same in colour and without if every stretch of its
text is closed, or has nothing but inks after it** (`Settled.stripped_eq`); and so are the lines
together, joined by line feeds (`strip_shown`).

The texts themselves are arbitrary, and this is the point of the second case: a message or a line of
a source may end in the front of a sequence, since an ink starts with an escape character and so
breaks it, and without colour nothing comes after it but a line feed.

* `stripped`: removal without an accumulator, which the proofs are about (`stripOnto_eq`).
* `afterSequence?_append`: whether a sequence starts a text does not depend on what follows.
* `stripped_append`: two texts can be taken apart.
* `notMem_shown`: a text without colour has no escape character but those of its parts (`Quiet`).
-/
import IndentLisp.Terminal

namespace IndentLisp.Terminal

/-! ## 1. Removing escape sequences without an accumulator -/

/-- The characters of a text without its escape sequences. -/
def stripped : List Char → List Char
  | [] => []
  | c :: cs =>
    match h : afterSequence? (c :: cs) with
    | some rest =>
      have := length_afterSequence? h
      stripped rest
    | none => c :: stripped cs
termination_by cs => cs.length
decreasing_by
  · exact this
  · exact Nat.lt_succ_self _

theorem stripped_of_some {cs rest : List Char} (h : afterSequence? cs = some rest) :
    stripped cs = stripped rest := by
  cases cs with
  | nil => cases h
  | cons c cs =>
    rw [stripped]
    split
    case h_1 rest' h' => exact congrArg stripped (Option.some.inj (h'.symm.trans h))
    case h_2 h' => cases h'.symm.trans h

theorem stripped_of_none {c : Char} {cs : List Char} (h : afterSequence? (c :: cs) = none) :
    stripped (c :: cs) = c :: stripped cs := by
  rw [stripped]
  split
  case h_1 rest' h' => cases h'.symm.trans h
  case h_2 => rfl

theorem stripOnto_eq (done cs : List Char) : stripOnto done cs = done.reverse ++ stripped cs := by
  induction done, cs using stripOnto.induct with
  | case1 done => rw [stripOnto, stripped, List.append_nil]
  | case2 done c cs rest h _ ih =>
    rw [stripped_of_some h, ← ih, stripOnto]
    split
    case h_1 rest' h' => exact congrArg (stripOnto done) (Option.some.inj (h'.symm.trans h))
    case h_2 h' => cases h'.symm.trans h
  | case3 done c cs h ih =>
    rw [stripped_of_none h, stripOnto]
    split
    case h_1 rest' h' => cases h'.symm.trans h
    case h_2 => rw [ih, List.reverse_cons, List.append_assoc, List.singleton_append]

theorem toList_strip (s : String) : (strip s).toList = stripped s.toList := by
  rw [strip, String.toList_ofList, stripOnto_eq, List.reverse_nil, List.nil_append]

/-! ## 2. Where a text can be taken apart -/

/-- What follows the parameters and the intermediate characters at the front of a text. -/
def afterMarks (cs : List Char) : List Char :=
  (cs.dropWhile isParameter).dropWhile isIntermediate

/-- What follows starts with a character that can follow any text: it is in no sequence that began
before.  Nothing at all is such a continuation, too. -/
def Breaks (cs : List Char) : Prop :=
  ∀ c ∈ cs.head?, c = '\n' ∨ c = '\x1b'

/-- The text is the front of an escape sequence, and its end is still to come. -/
def isPending : List Char → Bool
  | ['\x1b'] => true
  | '\x1b' :: '[' :: cs => (afterMarks cs).isEmpty
  | _ => false

/-- No end of the text is the front of an escape sequence.  Then no sequence that starts in the text
is finished by what follows it, however that goes on. -/
def Closed (cs : List Char) : Prop :=
  ∀ s, s <:+ cs → isPending s = false

theorem Closed.of_suffix {s cs : List Char} (h : Closed cs) (hs : s <:+ cs) : Closed s :=
  fun t ht => h t (ht.trans hs)

theorem dropWhile_append {p : Char → Bool} {cs ds : List Char}
    (h : cs.dropWhile p ≠ [] ∨ ∀ d ∈ ds.head?, p d = false) :
    (cs ++ ds).dropWhile p = cs.dropWhile p ++ ds := by
  rw [List.dropWhile_append]
  split
  case isFalse => rfl
  case isTrue hempty =>
    rw [List.isEmpty_iff] at hempty
    rw [hempty, List.nil_append]
    cases ds with
    | nil => rfl
    | cons d ds => exact List.dropWhile_cons_of_neg (by simp [h.resolve_left (absurd hempty) d rfl])

/-- A text is read up to its marks whatever follows, if they end in it or if what follows starts
with no mark.  Otherwise the marks of the two would be one run. -/
theorem afterMarks_append {cs ds : List Char}
    (h : afterMarks cs ≠ [] ∨ ∀ d ∈ ds.head?, isParameter d = false ∧ isIntermediate d = false) :
    afterMarks (cs ++ ds) = afterMarks cs ++ ds := by
  rw [afterMarks, dropWhile_append, afterMarks, dropWhile_append]
  · exact h.imp_right fun hd d hm => (hd d hm).2
  · refine h.imp (fun hne hnil => hne ?_) fun hd d hm => (hd d hm).1
    rw [afterMarks, hnil, List.dropWhile_nil]

theorem Breaks.no_mark {ds : List Char} (h : Breaks ds) :
    ∀ d ∈ ds.head?, isParameter d = false ∧ isIntermediate d = false ∧ isFinal d = false := by
  intro d hd
  rcases h d hd with rfl | rfl <;> decide

/-- No sequence starts where there is no bracket after an escape character. -/
theorem afterSequence?_eq_none {cs : List Char} (h : ∀ rest, cs ≠ '\x1b' :: '[' :: rest) :
    afterSequence? cs = none := by
  unfold afterSequence?
  split
  case h_1 rest => exact absurd rfl (h rest)
  case h_2 => rfl

theorem afterSequence?_of_cons {cs rest : List Char} {c : Char} (h : afterMarks cs = c :: rest) :
    afterSequence? ('\x1b' :: '[' :: cs) = if isFinal c then some rest else none := by
  rw [afterMarks] at h
  simp only [afterSequence?, h]

theorem afterSequence?_of_nil {cs : List Char} (h : afterMarks cs = []) :
    afterSequence? ('\x1b' :: '[' :: cs) = none := by
  rw [afterMarks] at h
  simp only [afterSequence?, h]

/-- **Whether a sequence starts a text does not depend on what follows the text**, if that breaks a
sequence that has begun, or if none has.  The sequence ends at the same place in both. -/
theorem afterSequence?_append {cs ds : List Char} (hne : cs ≠ [])
    (h : Breaks ds ∨ isPending cs = false) :
    afterSequence? (cs ++ ds) = (afterSequence? cs).map (· ++ ds) := by
  by_cases hb : ∃ rest, cs = '\x1b' :: '[' :: rest
  · obtain ⟨rest, rfl⟩ := hb
    rw [List.cons_append, List.cons_append]
    cases hm : afterMarks rest with
    | nil =>
      have hbreaks : Breaks ds := h.resolve_right (by simp [isPending, hm])
      have happ : afterMarks (rest ++ ds) = ds := by
        rw [afterMarks_append
          (Or.inr fun d hd => ⟨(hbreaks.no_mark d hd).1, (hbreaks.no_mark d hd).2.1⟩),
          hm, List.nil_append]
      rw [afterSequence?_of_nil hm]
      cases ds with
      | nil => exact afterSequence?_of_nil happ
      | cons d ds => rw [afterSequence?_of_cons happ, (hbreaks.no_mark d rfl).2.2]; rfl
    | cons c tail =>
      have happ : afterMarks (rest ++ ds) = c :: (tail ++ ds) := by
        rw [afterMarks_append (Or.inl (by simp [hm])), hm, List.cons_append]
      rw [afterSequence?_of_cons hm, afterSequence?_of_cons happ]
      split <;> rfl
  · have hnone : ∀ rest, cs ++ ds ≠ '\x1b' :: '[' :: rest := by
      intro rest heq
      match cs, hne with
      | [c], _ =>
        -- The escape character ends the text, so the bracket would be what follows.
        obtain ⟨rfl, rfl⟩ : c = '\x1b' ∧ ds = '[' :: rest := by simpa using heq
        rcases h with h | h
        · rcases h '[' rfl with h | h <;> exact absurd h (by decide)
        · exact absurd h (by decide)
      | c :: d :: cs, _ =>
        obtain ⟨rfl, rfl, -⟩ : c = '\x1b' ∧ d = '[' ∧ cs ++ ds = rest := by simpa using heq
        exact hb ⟨cs, rfl⟩
    rw [afterSequence?_eq_none hnone, afterSequence?_eq_none fun rest heq => hb ⟨rest, heq⟩]
    rfl

theorem afterSequence?_suffix {cs rest : List Char} (h : afterSequence? cs = some rest) :
    rest <:+ cs := by
  by_cases hb : ∃ tail, cs = '\x1b' :: '[' :: tail
  · obtain ⟨tail, rfl⟩ := hb
    have hmarks : afterMarks tail <:+ tail :=
      (List.dropWhile_suffix _).trans (List.dropWhile_suffix _)
    cases hm : afterMarks tail with
    | nil => cases (afterSequence?_of_nil hm).symm.trans h
    | cons c tail' =>
      rw [afterSequence?_of_cons hm] at h
      split at h
      · obtain rfl : tail' = rest := Option.some.inj h
        exact (((List.suffix_cons c _).trans (hm ▸ hmarks)).trans (List.suffix_cons _ _)).trans
          (List.suffix_cons _ _)
      · cases h
  · cases (afterSequence?_eq_none fun tail heq => hb ⟨tail, heq⟩).symm.trans h

/-- **Two texts can be taken apart** if the second breaks a sequence that has begun, or the first is
closed.  The induction is on the first text, from which a sequence is taken, or a character that
starts none. -/
theorem stripped_append {cs ds : List Char} (h : Breaks ds ∨ Closed cs) :
    stripped (cs ++ ds) = stripped cs ++ stripped ds := by
  induction cs using stripped.induct with
  | case1 => rw [stripped, List.nil_append, List.nil_append]
  | case2 c cs rest hsome _ ih =>
    have happ : afterSequence? ((c :: cs) ++ ds) = some (rest ++ ds) := by
      rw [afterSequence?_append (List.cons_ne_nil _ _)
        (h.imp_right fun hc => hc _ (List.suffix_refl _)), hsome]
      rfl
    rw [stripped_of_some happ, stripped_of_some hsome]
    exact ih (h.imp_right fun hc => hc.of_suffix (afterSequence?_suffix hsome))
  | case3 c cs hnone ih =>
    have happ : afterSequence? (c :: (cs ++ ds)) = none := by
      rw [← List.cons_append, afterSequence?_append (List.cons_ne_nil _ _)
        (h.imp_right fun hc => hc _ (List.suffix_refl _)), hnone]
      rfl
    rw [List.cons_append, stripped_of_none happ, stripped_of_none hnone, List.cons_append]
    rw [ih (h.imp_right fun hc => hc.of_suffix (List.suffix_cons _ _))]

/-! ## 3. Closed texts -/

theorem mem_of_isPending {cs : List Char} (h : isPending cs = true) : '\x1b' ∈ cs := by
  unfold isPending at h
  split at h
  · exact List.mem_cons_self
  · exact List.mem_cons_self
  · cases h

theorem closed_of_notMem {cs : List Char} (h : '\x1b' ∉ cs) : Closed cs := by
  intro s hs
  rw [← Bool.not_eq_true]
  intro hp
  exact h (hs.subset (mem_of_isPending hp))

/-- A text that ends in a closing bracket is closed: the bracket ends every sequence. -/
theorem closed_bracket (cs : List Char) : Closed (cs ++ [']']) := by
  have hpending : ∀ t : List Char, isPending (t ++ [']']) = false := by
    intro t
    match t with
    | [] => rfl
    | [c] => simp [isPending]
    | c :: d :: t =>
      have hmarks : afterMarks (t ++ [']']) = afterMarks t ++ [']'] := by
        refine afterMarks_append (Or.inr ?_)
        intro e he
        obtain rfl : ']' = e := Option.some.inj he
        decide
      rw [← Bool.not_eq_true]
      intro hp
      unfold isPending at hp
      split at hp
      case h_1 heq => simp at heq
      case h_2 rest heq =>
        obtain ⟨-, -, rfl⟩ : c = '\x1b' ∧ d = '[' ∧ t ++ [']'] = rest := by simpa using heq
        rw [hmarks, List.isEmpty_iff] at hp
        simp at hp
      case h_3 => cases hp
  intro s hs
  rcases List.suffix_concat_iff.mp hs with rfl | ⟨t, rfl, -⟩
  · rfl
  · exact hpending t

/-! ## 4. Lines in colour -/

/-- In colour and without, a line without its escape sequences is the same: each stretch of its text
is closed, or only inks come after it.  What is said of a stretch does not depend on what came
before it. -/
inductive Settled : List Piece → Prop
  | nil : Settled []
  | ink {i : Ink} {line : List Piece} : Settled line → Settled (.ink i :: line)
  | text {s : String} {line : List Piece} :
      Closed s.toList → Settled line → Settled (.text s :: line)
  | last {s : String} {line : List Piece} :
      (∀ p ∈ line, ∃ i, p = .ink i) → Settled (.text s :: line)

theorem afterSequence?_code (i : Ink) (cs : List Char) :
    afterSequence? (i.code.toList ++ cs) = some cs := by
  have hcode : afterSequence? i.code.toList = some [] ∧ isPending i.code.toList = false := by
    cases i <;> decide
  have hne : i.code.toList ≠ [] := by
    intro h
    rw [h] at hcode
    cases hcode.1
  rw [afterSequence?_append hne (Or.inr hcode.2), hcode.1]
  rfl

theorem stripped_code (i : Ink) (cs : List Char) : stripped (i.code.toList ++ cs) = stripped cs :=
  stripped_of_some (afterSequence?_code i cs)

/-- Inks, or nothing in their place, break a sequence that has begun. -/
theorem breaks_inks {line : List Piece} (h : ∀ p ∈ line, ∃ i, p = .ink i) (color : Bool) :
    Breaks (line.flatMap (Piece.chars color)) := by
  induction line with
  | nil => exact fun c hc => nomatch hc
  | cons p line ih =>
    obtain ⟨i, rfl⟩ := h p List.mem_cons_self
    have hcode : ∃ cs, i.code.toList = '\x1b' :: cs := by cases i <;> exact ⟨_, rfl⟩
    obtain ⟨cs, hcs⟩ := hcode
    rw [List.flatMap_cons, Piece.chars]
    split
    · intro c hc
      rw [hcs] at hc
      exact Or.inr (Option.some.inj hc).symm
    · exact ih fun q hq => h q (List.mem_cons_of_mem _ hq)

theorem stripped_inks {line : List Piece} (h : ∀ p ∈ line, ∃ i, p = .ink i) (color : Bool) :
    stripped (line.flatMap (Piece.chars color)) = [] := by
  induction line with
  | nil => rw [List.flatMap_nil, stripped]
  | cons p line ih =>
    obtain ⟨i, rfl⟩ := h p List.mem_cons_self
    have hline := ih fun q hq => h q (List.mem_cons_of_mem _ hq)
    rw [List.flatMap_cons, Piece.chars]
    split
    · rw [stripped_code, hline]
    · rw [List.nil_append, hline]

/-- **A settled line is the same without its escape sequences**, in colour and without.  Where a
stretch is closed it is taken off the front in both; where only inks come after it, these are
nothing without colour. -/
theorem Settled.stripped_eq {line : List Piece} (h : Settled line) :
    stripped (line.flatMap (Piece.chars true)) = stripped (line.flatMap (Piece.chars false)) := by
  induction h with
  | nil => rfl
  | @ink i line _ ih =>
    have htrue : Piece.chars true (.ink i) = i.code.toList := rfl
    have hfalse : Piece.chars false (.ink i) = [] := rfl
    rw [List.flatMap_cons, List.flatMap_cons, htrue, hfalse, stripped_code, ih, List.nil_append]
  | @text s line hs _ ih =>
    rw [List.flatMap_cons, List.flatMap_cons, Piece.chars, Piece.chars, stripped_append (Or.inr hs),
      stripped_append (Or.inr hs), ih]
  | @last s line hinks =>
    have hapart : ∀ color,
        stripped (s.toList ++ line.flatMap (Piece.chars color)) = stripped s.toList := by
      intro color
      rw [stripped_append (Or.inl (breaks_inks hinks color)), stripped_inks hinks, List.append_nil]
    rw [List.flatMap_cons, List.flatMap_cons, Piece.chars, Piece.chars, hapart, hapart]

theorem Settled.inked (i : Ink) (s : String) : Settled [.ink i, .text s, .ink .plain] :=
  .ink (.last fun _ hp => ⟨.plain, List.mem_singleton.mp hp⟩)

/-! ## 5. Lines together -/

/-- Lines joined by line feeds can be taken apart. -/
theorem stripped_intercalate (lines : List (List Char)) :
    stripped (['\n'].intercalate lines) = ['\n'].intercalate (lines.map stripped) := by
  induction lines with
  | nil => rw [List.intercalate_nil, stripped, List.map_nil, List.intercalate_nil]
  | cons line lines ih =>
    cases lines with
    | nil => rw [List.intercalate_singleton, List.map_singleton, List.intercalate_singleton]
    | cons next lines =>
      have hbreaks : ∀ cs, Breaks ('\n' :: cs) := fun cs c hc => Or.inl (Option.some.inj hc).symm
      have hfeed : ∀ cs, stripped ('\n' :: cs) = '\n' :: stripped cs :=
        fun cs => stripped_of_none (afterSequence?_eq_none fun rest heq => by simp at heq)
      rw [List.map_cons, List.map_cons, List.intercalate_cons_cons, List.intercalate_cons_cons,
        ← List.map_cons, ← ih, List.append_assoc, List.append_assoc, List.singleton_append,
        List.singleton_append, stripped_append (Or.inl (hbreaks _)), hfeed]

theorem toList_joined (color : Bool) (lines : List (List Piece)) :
    ("\n".intercalate (lines.map (shown color))).toList =
      ['\n'].intercalate (lines.map fun line => line.flatMap (Piece.chars color)) := by
  rw [String.toList_intercalate, List.map_map]
  congr 1
  exact List.map_congr_left fun line _ => String.toList_ofList

/-- **Settled lines are the same without their escape sequences**, in colour and without.  A line
feed breaks a sequence that has begun, so the lines can be taken one by one. -/
theorem strip_shown {lines : List (List Piece)} (h : ∀ line ∈ lines, Settled line) :
    strip ("\n".intercalate (lines.map (shown true))) =
      strip ("\n".intercalate (lines.map (shown false))) := by
  have hlines : (lines.map fun line => stripped (line.flatMap (Piece.chars true))) =
      lines.map fun line => stripped (line.flatMap (Piece.chars false)) :=
    List.map_congr_left fun line hl => (h line hl).stripped_eq
  rw [← String.toList_inj, toList_strip, toList_strip, toList_joined, toList_joined,
    stripped_intercalate, stripped_intercalate, List.map_map, List.map_map]
  exact congrArg _ hlines

theorem mem_intercalate {c d : Char} {lines : List (List Char)} (h : c ∈ [d].intercalate lines) :
    c = d ∨ ∃ line ∈ lines, c ∈ line := by
  induction lines with
  | nil => cases h
  | cons line lines ih =>
    cases lines with
    | nil =>
      rw [List.intercalate_singleton] at h
      exact Or.inr ⟨line, List.mem_cons_self, h⟩
    | cons next lines =>
      rw [List.intercalate_cons_cons, List.mem_append, List.mem_append, List.mem_singleton] at h
      rcases h with (h | h) | h
      · exact Or.inr ⟨line, List.mem_cons_self, h⟩
      · exact Or.inl h
      · exact (ih h).imp_right fun ⟨other, ho, hc⟩ => ⟨other, List.mem_cons_of_mem _ ho, hc⟩

/-- No stretch of the text of a line has an escape character, though its inks have.  Shown without
colour, such a line has none. -/
def Quiet (line : List Piece) : Prop :=
  ∀ s, Piece.text s ∈ line → '\x1b' ∉ s.toList

/-- Without colour, nothing but the text of the lines can bring an escape character. -/
theorem notMem_shown {lines : List (List Piece)} (h : ∀ line ∈ lines, Quiet line) :
    '\x1b' ∉ ("\n".intercalate (lines.map (shown false))).toList := by
  intro hm
  rw [toList_joined] at hm
  rcases mem_intercalate hm with hfeed | ⟨chars, hchars, hc⟩
  · exact absurd hfeed (by decide)
  · obtain ⟨line, hl, rfl⟩ := List.mem_map.mp hchars
    obtain ⟨p, hp, hc⟩ := List.mem_flatMap.mp hc
    cases p with
    | text s => exact h line hl s hp hc
    | ink i => cases hc

end IndentLisp.Terminal

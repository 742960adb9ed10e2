/-
# Passages

How a scan comes to a place in a text depends on the text behind that place, and hardly on what
comes after it: a turn looks one character further than it goes, if at all.  So **the rest of a text
can be replaced**, as long as it starts in the same way (`move_replace`, `Passes.replace`), or where
the last turn cannot tell it from a delimiter (`move_plain`).

Everything that compares a text with an edited one starts here.  The two are the same up to the
edit, so their scans come to it in the same way, and what is left to compare is what is found from
there on.  The trouble is in the word hardly.  A token goes on as long as no delimiter follows it; a
run of line ends takes all line ends that follow, and in an indented block all tabs; a comment in a
block takes the line end along.  Which replacement a turn does not notice is said turn by turn
(section 3), and then of the way to a place.

* `Passes`: the states of a scan, each with the text that lies behind it and the strokes that are
  drawn.
* `Passes.found`: what a scan finds in a text is what it draws on the way to a place and what it
  finds from there on.
* `Nesting.EndsBefore`, `scan_ends`: line ends that end a block, and where they lead.
* `Reader.visits_of_reaches`: **every state of a scan is one of the reading.**
* `read_of_found`: texts in which the same is found are read to the same tree.

`Scan.found` leaves out how far a scan comes, since that is not the same in an edited text.
-/
import IndentLisp.Proofs.Reader.LineEnds
import IndentLisp.Proofs.Reader.Forward
import IndentLisp.Proofs.Reader.Progress
import IndentLisp.Proofs.Reader.RoundTrip

namespace IndentLisp

/-! ## 1. What a scan finds -/

/-- What a scan draws, and the offence that stops it, if one does.  How far it comes is left out, as
that differs between texts that are otherwise read alike. -/
def Scan.found (s : Scan) : List Stroke × Option Offence :=
  (s.strokes, s.offence?)

/-- What is found where strokes come before the rest. -/
def Stroke.before (xs : List Stroke) (found : List Stroke × Option Offence) :
    List Stroke × Option Offence :=
  (xs ++ found.1, found.2)

theorem Stroke.before_append (xs ys : List Stroke) (found : List Stroke × Option Offence) :
    before (xs ++ ys) found = before xs (before ys found) :=
  congrArg (·, found.2) (List.append_assoc xs ys found.1)

theorem Stroke.length_before (xs : List Stroke) (found : List Stroke × Option Offence) :
    (before xs found).1.length = xs.length + found.1.length :=
  List.length_append

theorem Scan.found_after (s : Scan) (v : Move) :
    (s.after v).found = Stroke.before v.strokes s.found :=
  rfl

/-- A blank or a line end between blocks. -/
theorem move_gap {c : Char} (hc : c = ' ' ∨ c = '\t' ∨ c = '\n') (cs : List Char) :
    move none c cs = .ok ⟨1, [], none⟩ :=
  congrArg Except.ok (moveBetween_blank hc cs)

/-- A space or a tab, within a block or between blocks. -/
theorem move_anyBlank {c : Char} (hc : c = ' ' ∨ c = '\t') (m : Option Nesting) (cs : List Char) :
    move m c cs = .ok ⟨1, [], m⟩ := by
  cases m with
  | none => exact move_gap (or_assoc.mp (Or.inl hc)) cs
  | some n => exact move_blank hc cs n

/-- A turn that draws nothing finds nothing. -/
theorem found_of_move {m m' : Option Nesting} {c : Char} {cs : List Char} {k : Nat}
    (h : move m c cs = .ok ⟨k, [], m'⟩) :
    (scan m (c :: cs)).found = (scan m' ((c :: cs).drop k)).found := by
  rw [scan_ok h]
  rfl

/-- **Texts in which the same is found are read to the same tree**, handles included, since the tree
is drawn by the strokes. -/
theorem read_of_found {text text' file : String} {t : Tree}
    (h : (scanText text').found = (scanText text).found) (ht : read text file = .ok t) :
    read text' file = .ok t := by
  obtain ⟨hs, ho⟩ := Prod.mk.inj h
  obtain ⟨hnone, htree⟩ := read_eq_ok_iff.mp ht
  refine read_eq_ok_iff.mpr ⟨ho.trans hnone, ?_⟩
  rw [← htree, draftOf, draftOf, hs]

/-! ## 2. The end of a block -/

/-- Whether a line end before a text ends a block: in a classic block all parentheses are closed,
and in an indented one no tab follows the line ends.  Further line ends make no difference. -/
def Nesting.EndsBefore (n : Nesting) (cs : List Char) : Prop :=
  (n.style = .classic → n.opened = 0) ∧
    (n.style = .indented → (cs.dropWhile (· = '\n')).head? ≠ some '\t')

theorem dropWhile_run {c : Char} {rest : List Char} (k : Nat) (h : rest.head? ≠ some c) :
    (List.replicate k c ++ rest).dropWhile (· = c) = rest := by
  rw [← drop_takeWhile, length_run k h, drop_run]

/-- A line end ends a classic block in which all parentheses are closed. -/
theorem Nesting.endsBefore_classic {n : Nesting} (hs : n.style = .classic) (h0 : n.opened = 0)
    (cs : List Char) : n.EndsBefore cs :=
  ⟨fun _ => h0, fun hi => absurd (hs.symm.trans hi) nofun⟩

/-- It ends an indented block where no tab follows. -/
theorem Nesting.endsBefore_indented {n : Nesting} (hs : n.style = .indented) {cs : List Char}
    (ht : (cs.dropWhile (· = '\n')).head? ≠ some '\t') : n.EndsBefore cs :=
  ⟨fun hc => absurd (hs.symm.trans hc) nofun, fun _ => ht⟩

/-- Line ends between blocks are passed. -/
theorem scan_none_ends (j : Nat) (cs : List Char) :
    scan none (List.replicate j '\n' ++ cs) = (scan none cs).after ⟨j, [], none⟩ := by
  induction j with
  | zero => exact (Scan.after_stay _ _).symm
  | succ j ih =>
    rw [List.replicate_succ, List.cons_append, scan_ok (move_gap (by simp) _), List.drop_one,
      List.tail_cons, ih, Scan.after_after, Move.followedBy, Nat.add_comm 1]
    rfl

/-- **Line ends lead to a place between blocks**, from any block that they end, and from between
blocks; the lists of the block are ended by then. -/
theorem scan_ends {m : Option Nesting} {cs : List Char} (j : Nat)
    (hm : ∀ n, m = some n → n.EndsBefore cs) :
    scan m (List.replicate (j + 1) '\n' ++ cs) =
      (scan none cs).after ⟨j + 1, List.replicate (levelOf m) .leave, none⟩ := by
  cases m with
  | none => exact scan_none_ends (j + 1) cs
  | some n =>
    obtain ⟨hc, ht⟩ := hm n rfl
    -- The run may go on in the rest.
    obtain ⟨i, rest, rfl, hn⟩ := exists_run '\n' cs
    rw [dropWhile_run i hn] at ht
    have hrun : List.replicate (j + 1) '\n' ++ (List.replicate i '\n' ++ rest) =
        '\n' :: (List.replicate (j + i) '\n' ++ rest) := by
      rw [← List.append_assoc, List.replicate_append_replicate, Nat.add_right_comm,
        List.replicate_succ, List.cons_append]
    have hmove : move (some n) '\n' (List.replicate (j + i) '\n' ++ rest) =
        .ok ⟨j + i + 1, List.replicate n.level .leave, none⟩ := by
      have hlast := Nesting.breakLine_last (j + i) hn hc ht
      rw [List.replicate_succ, List.cons_append] at hlast
      rw [move_breakLine, hlast]
    rw [hrun, scan_ok hmove, List.drop_succ_cons, drop_run, scan_none_ends, Scan.after_after,
      Move.followedBy, Nat.add_right_comm, List.append_nil]
    rfl

/-! ## 3. What comes after a turn -/

/-- A text after a part of a given length. -/
theorem take_drop_append {front : List Char} {k : Nat} (h : front.length = k) (rest : List Char) :
    (front ++ rest).take k = front ∧ (front ++ rest).drop k = rest :=
  ⟨List.take_left' h, List.drop_left' h⟩

section Replace

variable {m : Option Nesting} {c : Char} {cs : List Char} {v : Move}

/-- **A turn at a parenthesis, a blank or a token** stays as it is where what comes after it is
replaced by nothing, or by a text that starts with a delimiter or as before.  Line ends and comments
are excluded, as they look further. -/
theorem move_plain (h : move m c cs = .ok v) (hp : v.passed ≠ 0) (hn : c ≠ '\n') (hs : c ≠ ';')
    {rest : List Char}
    (hr : ∀ d, rest.head? = some d →
      Token.isDelimiter d = true ∨ ((c :: cs).drop v.passed).head? = some d) :
    ∃ cs', move m c cs' = .ok v ∧ (c :: cs').take v.passed = (c :: cs).take v.passed ∧
      (c :: cs').drop v.passed = rest := by
  cases turn_of_move h with
  | gap hc => exact ⟨rest, move_gap hc _, rfl, rfl⟩
  | classic => exact ⟨rest, congrArg Except.ok (moveBetween_opening _), rfl, rfl⟩
  | opening => exact ⟨rest, by simp [move, Nesting.move], rfl, rfl⟩
  | closing h0 => exact ⟨rest, by simp [move, Nesting.move, h0], rfl, rfl⟩
  | blank hc => exact ⟨rest, move_blank hc _ _, rfl, rfl⟩
  | @token n _ _ k hc hk =>
    have htok := Token.length?_replace hk hr
    obtain ⟨htake, hdrop⟩ :=
      take_drop_append (List.length_take_of_le (Token.length?_le hk)) rest
    obtain ⟨j, rfl⟩ := Nat.exists_eq_succ_of_ne_zero hp
    rw [List.take_succ_cons, List.cons_append] at htok htake hdrop
    refine ⟨cs.take j ++ rest, ?_, ?_, hdrop⟩
    · rw [move_token hc htok, htake, List.take_succ_cons]
    · rw [htake, List.take_succ_cons]
  | remark => exact absurd rfl hs
  | indented => exact absurd rfl hp
  | lineEnd => exact absurd rfl hn
  | comment => exact absurd rfl hs

/-- A comment between blocks goes up to a line end, whatever comes after that. -/
theorem move_remark (cs : List Char) {rest : List Char} (hr : ∀ d, rest.head? = some d → d = '\n') :
    ∃ cs', move none ';' cs' = .ok ⟨lineLength (';' :: cs), [], none⟩ ∧
      (';' :: cs').take (lineLength (';' :: cs)) = (';' :: cs).take (lineLength (';' :: cs)) ∧
      (';' :: cs').drop (lineLength (';' :: cs)) = rest := by
  obtain ⟨htake, hdrop⟩ := take_drop_append (length_line cs) rest
  refine ⟨cs.take (lineLength cs) ++ rest, ?_, ?_, ?_⟩
  · simp only [move, moveBetween_comment, lineLength_comment,
      lineLength_append (notMem_line cs) hr, length_line]
  · rw [lineLength_comment, List.take_succ_cons, List.take_succ_cons, htake]
  · rw [lineLength_comment, List.drop_succ_cons, hdrop]

/-- A comment within a block goes past its line end, whatever comes after that. -/
theorem move_comment (n : Nesting) {line : List Char} (hl : '\n' ∉ line) (rest : List Char) :
    move (some n) ';' (line ++ '\n' :: rest) = .ok ⟨line.length + 2, [], some n⟩ := by
  have hline : lineLength (line ++ '\n' :: rest) = line.length := lineLength_append hl (by simp)
  simp [move, Nesting.move, lineLength_comment, hline]

/-- So what comes after its line end can be replaced by anything. -/
theorem move_comment_replace (n : Nesting) {ds : List Char}
    (hds : cs.drop (lineLength cs) = '\n' :: ds)
    (rest : List Char) :
    ∃ cs', move (some n) ';' cs' = .ok ⟨lineLength (';' :: cs) + 1, [], some n⟩ ∧
      (';' :: cs').take (lineLength (';' :: cs) + 1) =
        (';' :: cs).take (lineLength (';' :: cs) + 1) ∧
      (';' :: cs').drop (lineLength (';' :: cs) + 1) = rest := by
  have hmove := move_comment n (notMem_line cs) rest
  have hlen : (cs.take (lineLength cs) ++ ['\n']).length = lineLength cs + 1 := by
    rw [List.length_append, length_line]
    rfl
  have hold : cs.take (lineLength cs + 1) = cs.take (lineLength cs) ++ ['\n'] := by
    rw [List.take_add, hds]
    rfl
  obtain ⟨htake, hdrop⟩ := take_drop_append hlen rest
  rw [List.append_assoc, List.singleton_append] at htake hdrop
  rw [lineLength_comment]
  refine ⟨cs.take (lineLength cs) ++ '\n' :: rest, ?_, ?_, ?_⟩
  · rw [hmove, length_line]
  · rw [List.take_succ_cons, List.take_succ_cons, htake, hold]
  · rw [List.drop_succ_cons, hdrop]

/-- Line ends are passed as before where what comes after them starts as before, or with a blank in
place of a comment. -/
theorem move_lineEnd (n : Nesting) {rest : List Char} {d : Char} (hd : rest.head? = some d)
    (hr : (('\n' :: cs).drop (n.breakLine ('\n' :: cs)).passed).head? = some d ∨
      (('\n' :: cs).drop (n.breakLine ('\n' :: cs)).passed).head? = some ';' ∧ d = ' ') :
    ∃ cs', move (some n) '\n' cs' = .ok (n.breakLine ('\n' :: cs)) ∧
      ('\n' :: cs').take (n.breakLine ('\n' :: cs)).passed =
        ('\n' :: cs).take (n.breakLine ('\n' :: cs)).passed ∧
      ('\n' :: cs').drop (n.breakLine ('\n' :: cs)).passed = rest := by
  obtain ⟨j, k, old, hcs, hp, hn, ht, hsame⟩ := n.exists_breakLine cs
  have hlen : (List.replicate (j + 1) '\n' ++ List.replicate k '\t').length = j + 1 + k := by simp
  obtain ⟨htake, hdrop⟩ := take_drop_append hlen rest
  obtain ⟨htake', hdrop'⟩ := take_drop_append hlen old
  rw [List.append_assoc] at htake hdrop htake' hdrop'
  have hhead : rest.head? = old.head? ∨ rest.head? = some ' ' := by
    rw [hp, hcs, hdrop'] at hr
    rcases hr with hr | ⟨-, rfl⟩
    · exact Or.inl (hd.trans hr.symm)
    · exact Or.inr hd
  have hbreak := hsame rest
    (fun h => hhead.elim (fun e => hn (e ▸ h)) (fun e => by rw [e] at h; cases h))
    (fun h => hhead.elim (fun e => ht (e ▸ h)) (fun e => by rw [e] at h; cases h))
  have hrun : '\n' :: (List.replicate j '\n' ++ (List.replicate k '\t' ++ rest)) =
      List.replicate (j + 1) '\n' ++ (List.replicate k '\t' ++ rest) := by
    rw [List.replicate_succ, List.cons_append]
  refine ⟨List.replicate j '\n' ++ (List.replicate k '\t' ++ rest), ?_, ?_, ?_⟩
  · rw [← hbreak, ← hrun]
    simp [move, Nesting.move]
  · rw [hp, hcs, hrun, htake, htake']
  · rw [hp, hrun, hdrop]

/-- **A turn stays as it is where what comes after it is replaced** by a text that starts as before,
or with a blank in place of a comment.  The second case is for taking a comment out: a semicolon
does not end a symbol, but where a comment starts no symbol goes on. -/
theorem move_replace (h : move m c cs = .ok v) {rest : List Char} {d : Char}
    (hd : rest.head? = some d) (hr : ((c :: cs).drop v.passed).head? = some d ∨
      ((c :: cs).drop v.passed).head? = some ';' ∧ d = ' ') :
    ∃ cs', move m c cs' = .ok v ∧ (c :: cs').take v.passed = (c :: cs).take v.passed ∧
      (c :: cs').drop v.passed = rest := by
  have hplain : v.passed ≠ 0 → c ≠ '\n' → c ≠ ';' →
      ∃ cs', move m c cs' = .ok v ∧ (c :: cs').take v.passed = (c :: cs).take v.passed ∧
        (c :: cs').drop v.passed = rest := by
    intro hp hn hs
    refine move_plain h hp hn hs fun e he => ?_
    obtain rfl : d = e := Option.some.inj (hd.symm.trans he)
    rcases hr with hr | ⟨-, rfl⟩
    · exact Or.inr hr
    · exact Or.inl rfl
  cases turn_of_move h with
  | gap hc => exact ⟨rest, move_gap hc _, rfl, rfl⟩
  | remark =>
    refine move_remark cs fun e he => ?_
    obtain rfl : d = e := Option.some.inj (hd.symm.trans he)
    rw [lineLength_comment, List.drop_succ_cons] at hr
    rcases drop_lineLength cs with hnil | ⟨ds, hds⟩
    · simp [hnil] at hr
    · simpa [hds, eq_comm] using hr
  | indented hc ho =>
    -- The turn passes nothing, so the rest starts with the character that it is about.
    obtain ⟨d', ds, rfl⟩ : ∃ d' ds, rest = d' :: ds := by
      cases rest with
      | nil => cases hd
      | cons d' ds => exact ⟨d', ds, rfl⟩
    obtain rfl : d' = d := Option.some.inj hd
    have hcd : c = d' := by
      rcases hr with hr | ⟨hr, -⟩
      · exact Option.some.inj hr
      · exact absurd (Option.some.inj hr) hc.2.2.2
    subst hcd
    exact ⟨ds, congrArg Except.ok (moveBetween_other hc ho _), rfl, rfl⟩
  | @lineEnd n _ => exact move_lineEnd n hd hr
  | @comment n _ =>
    rw [lineLength_comment] at hr
    rcases drop_lineLength cs with hnil | ⟨ds, hds⟩
    · -- A comment without a line end has nothing after it.
      have hnone : cs.drop (lineLength cs + 1) = [] := by
        rw [← List.drop_drop, hnil, List.drop_nil]
      simp [hnone] at hr
    · exact move_comment_replace n hds rest
  | classic => exact hplain Nat.one_ne_zero (by decide) (by decide)
  | opening => exact hplain Nat.one_ne_zero (by decide) (by decide)
  | closing => exact hplain Nat.one_ne_zero (by decide) (by decide)
  | blank hc =>
    exact hplain Nat.one_ne_zero (by rcases hc with rfl | rfl <;> decide)
      (by rcases hc with rfl | rfl <;> decide)
  | token hc hk =>
    obtain ⟨-, -, -, -, hn, hs⟩ := Token.isStart_iff.mp hc
    exact hplain (Nat.ne_of_gt (Token.length?_pos hk)) hn hs

end Replace

/-! ## 4. The way to a place -/

/-- The states to which the turns of a scan lead, each with the text behind it, the strokes that are
drawn on the way, and the rest of the text.  The text behind is put together from what the turns
passed. -/
inductive Passes (m : Option Nesting) :
    List Char → List Stroke → Option Nesting → List Char → Prop
  | refl {cs : List Char} : Passes m [] [] m cs
  | turn {front : List Char} {xs : List Stroke} {m' : Option Nesting} {d : Char} {ds : List Char}
      {v : Move} :
      Passes m front xs m' (d :: ds) → move m' d ds = .ok v →
      Passes m (front ++ (d :: ds).take v.passed) (xs ++ v.strokes) v.next ((d :: ds).drop v.passed)

theorem Reaches.passes {m m' : Option Nesting} {cs ds : List Char} (h : Reaches m cs m' ds) :
    ∃ front xs, cs = front ++ ds ∧ Passes m front xs m' ds := by
  induction h with
  | refl => exact ⟨[], [], rfl, .refl⟩
  | turn _ hv ih =>
    obtain ⟨front, xs, hcs, hp⟩ := ih
    refine ⟨_, _, ?_, .turn hp hv⟩
    rw [List.append_assoc, List.take_append_drop, hcs]

namespace Passes

variable {m m' : Option Nesting} {front rest : List Char} {xs : List Stroke}

theorem reaches (h : Passes m front xs m' rest) : Reaches m (front ++ rest) m' rest := by
  induction h with
  | refl => exact .refl
  | turn _ hv ih =>
    rw [List.append_assoc, List.take_append_drop]
    exact .turn ih hv

/-- **What a scan finds** is what it draws on the way to a place and what it finds from there on.
The offence of a text, if there is one, is beyond every place that the scan comes to. -/
theorem found (h : Passes m front xs m' rest) :
    (scan m (front ++ rest)).found = Stroke.before xs (scan m' rest).found := by
  induction h with
  | refl => rfl
  | turn _ hv ih =>
    rw [List.append_assoc, List.take_append_drop, ih, scan_ok hv, Scan.found_after,
      Stroke.before_append]

/-- A last turn at another rest. -/
theorem turn_of_parts {d : Char} {ds cs' : List Char} {v : Move}
    (h : Passes m front xs m' (d :: cs'))
    (hv : move m' d cs' = .ok v) (ht : (d :: cs').take v.passed = (d :: ds).take v.passed)
    (hd : (d :: cs').drop v.passed = rest) :
    Passes m (front ++ (d :: ds).take v.passed) (xs ++ v.strokes) v.next rest := by
  rw [← ht, ← hd]
  exact .turn h hv

/-- **The rest of a text can be replaced**, by one that starts as before, or with a blank in place
of a comment.  Only the last turn on the way can see the difference. -/
theorem replace (h : Passes m front xs m' rest) {rest' : List Char} {d : Char}
    (hd : rest'.head? = some d) (hr : rest.head? = some d ∨ rest.head? = some ';' ∧ d = ' ') :
    Passes m front xs m' rest' := by
  induction h generalizing rest' d with
  | refl => exact .refl
  | turn _ hv ih =>
    obtain ⟨cs', hv', ht, hdrop⟩ := move_replace hv hd hr
    exact turn_of_parts (ih rfl (Or.inl rfl)) hv' ht hdrop

/-- So line ends can be followed by anything, and there can be more of them or less. -/
theorem replace_ends {j : Nat} (h : Passes m front xs m' (List.replicate (j + 1) '\n' ++ rest))
    (i : Nat) (rest' : List Char) :
    Passes m front xs m' (List.replicate (i + 1) '\n' ++ rest') := by
  rw [List.replicate_succ, List.cons_append] at h ⊢
  exact h.replace rfl (Or.inl rfl)

/-- The rest after a parenthesis, a blank or a token can be replaced by a text that starts with a
delimiter, if it has a start at all. -/
theorem replace_plain {d : Char} {ds : List Char} {v : Move} (h : Passes m front xs m' (d :: ds))
    (hv : move m' d ds = .ok v) (hp : v.passed ≠ 0) (hn : d ≠ '\n') (hs : d ≠ ';')
    {rest' : List Char} (hr : ∀ e, rest'.head? = some e → Token.isDelimiter e = true) :
    Passes m (front ++ (d :: ds).take v.passed) (xs ++ v.strokes) v.next rest' := by
  obtain ⟨cs', hv', ht, hdrop⟩ := move_plain hv hp hn hs fun e he => Or.inl (hr e he)
  exact turn_of_parts (h.replace rfl (Or.inl rfl)) hv' ht hdrop

end Passes

/-! ## 5. Scans and readings -/

namespace Reader

/-- A turn of the scan is one of the reading. -/
theorem turn_of_scan {m : Option Nesting} {b : Block} {r : Reader} {c : Char} {cs : List Char}
    {v : Move}
    (h : Fits m (some b) r) (ha : r.cursor.ahead = c :: cs) (hv : IndentLisp.move m c cs = .ok v) :
    ∃ o r', turn b r = .ok o r' ∧ Fits v.next o r' ∧ r'.cursor = r.cursor.skip v.passed := by
  obtain ⟨n, d, rfl, hl, rfl, hr⟩ := fits_some h
  have ht := turn_eq r.file hl ha
  rw [show n.move c cs = .ok v from hv, ← hr] at ht
  exact ⟨_, _, ht, ⟨d.draw v.strokes, level_draw_move hv hl, rfl, rfl⟩, rfl⟩

/-- **Every turn of the scan is a step of the reading**, from a state that fits to one that fits.
The reader does not fail where the scan does not. -/
theorem exists_step {m : Option Nesting} {o : Option Block} {r : Reader} {c : Char} {cs : List Char}
    {v : Move}
    (hf : Fits m o r) (ha : r.cursor.ahead = c :: cs) (hv : IndentLisp.move m c cs = .ok v) :
    ∃ o' r', Step o r o' r' ∧ Fits v.next o' r' ∧ r'.cursor = r.cursor.skip v.passed := by
  cases o with
  | some b =>
    obtain ⟨o', r', ht, hf', hc⟩ := turn_of_scan hf ha hv
    exact ⟨o', r', .turn (by simp [ha]) ht, hf', hc⟩
  | none =>
    cases hd : startsBlock c with
    | false =>
      obtain ⟨v', r', hv', ht, hf', hc⟩ := pass_of_fits hf ha hd
      rw [hv] at hv'
      cases hv'
      exact ⟨none, r', .pass ha hd ht, hf', hc⟩
    | true =>
      obtain ⟨v', b, r', hv', hs, hf', hc⟩ := startBlock_of_fits hf ha hd
      rw [hv] at hv'
      cases hv'
      exact ⟨some b, r', .enter ha hd hs, hf', hc⟩

/-- **Every state of a scan is one of the reading.**  With `Visits.fits` this says that the scan and
the reading go through the same states. -/
theorem visits_of_reaches {text : String} (file : String) {m : Option Nesting} {ds : List Char}
    (h : Reaches none (Lines.unify text.toList) m ds) :
    ∃ k o r, Visits text file k o r ∧ Fits m o r ∧ r.cursor.ahead = ds := by
  induction h with
  | refl => exact ⟨0, none, .ofText text file, .start, fits_ofText text file, rfl⟩
  | @turn m' d ds v _ hv ih =>
    obtain ⟨k, o, r, hvisits, hf, ha⟩ := ih
    obtain ⟨o', r', hs, hf', hc⟩ := exists_step hf ha hv
    refine ⟨k + 1, o', r', hvisits.step hs, hf', ?_⟩
    rw [hc, Cursor.skip_ahead, ha]

/-- A reading only moves on. -/
theorem Visits.exists_skip {text file : String} {k : Nat} {o : Option Block} {r : Reader}
    (h : Visits text file k o r) :
    ∃ j, r.cursor = (Cursor.ofText (Lines.unify text.toList)).skip j := by
  have step : ∀ {α : Type} {x : Action α} {a : α} {s s' : Reader}, Forward x s → x s = .ok a s' →
      (∃ j, s.cursor = (Cursor.ofText (Lines.unify text.toList)).skip j) →
      ∃ j, s'.cursor = (Cursor.ofText (Lines.unify text.toList)).skip j := by
    rintro α x a s s' hx hs ⟨i, hi⟩
    obtain ⟨j, hj⟩ := (forward_of_ok hs).mp hx
    exact ⟨i + j, by rw [hj, hi, Cursor.skip_add]⟩
  induction h with
  | start => exact ⟨0, rfl⟩
  | pass _ _ _ ht ih => exact step (forward_topLevel _) ht ih
  | enter _ _ _ hs ih => exact step (forward_startBlock _) hs ih
  | turn _ _ ht ih => exact step (forward_turn _ _) ht ih

/-- It never changes its text. -/
theorem Visits.text_eq {text file : String} {k : Nat} {o : Option Block} {r : Reader}
    (h : Visits text file k o r) : r.cursor.text = Lines.unify text.toList := by
  obtain ⟨j, hj⟩ := h.exists_skip
  rw [hj, Cursor.text_skip]
  rfl

end Reader

end IndentLisp

/-
# Places between lexemes

Which places of a text lie outside its tokens and comments can be told without blocks (`Between`): a
place is passed over a parenthesis, a blank or a line end, over a whole token, or over a comment up
to the end of its line.  A scan takes a run of line ends in one turn, with the tabs after it, and so
it does with a comment in a block and its line end.  **Any other place between lexemes is one to
which the turns of a scan lead** (`Between.located`).

`Between` is how an edit says where it is made, in terms that have nothing to do with how a text is
read.  `Located` is what the scan has to say of such a place.  There are three cases, and a lemma
for each thing that can come next says how the case changes when that is passed; the theorem is the
induction over them.

The second subject is texts without comments.  That a text has none is not to say that it has no
semicolon, since a symbol or a string may hold one; it is that no comment is met when the text is
gone through token by token (`isCommentFree`).  It has to be shown, then, that a scan meets none
either (`Passes.not_isCommentFree`), and that an edit brings none (`Between.isCommentFree_replace`).

* `Passes.isCommentFree`: what a scan has left of such a text.
* `Passes.lineEnds`: where a scan comes to after a run of line ends.
* `Located.before_lineEnd`: **where a scan is before a line end**, which is where lines are edited.
-/
import IndentLisp.Proofs.Reader.Passage

namespace IndentLisp

/-! ## 1. Places -/

/-- What stands between tokens: a parenthesis, a blank or a line end. -/
def isSign (c : Char) : Bool :=
  c = '(' || c = ')' || c = ' ' || c = '\t' || c = '\n'

theorem isSign_iff {c : Char} :
    isSign c = true ↔ c = '(' ∨ c = ')' ∨ c = ' ' ∨ c = '\t' ∨ c = '\n' := by
  simp [isSign, or_assoc]

/-- **The place between two parts of a text lies outside of its tokens and comments.**  It is told
from the start of the text on; what a token is, is for the rules of tokens to say, and no block
comes into it. -/
inductive Between : List Char → List Char → Prop
  | start (cs : List Char) : Between [] cs
  | sign {front cs : List Char} {c : Char} :
      isSign c = true → Between front (c :: cs) → Between (front ++ [c]) cs
  | comment {front cs : List Char} :
      Between front (';' :: cs) → Between (front ++ ';' :: cs.take (lineLength cs))
        (cs.drop (lineLength cs))
  | token {front cs : List Char} {c : Char} {k : Nat} :
      Token.isStart c = true → Token.length? (c :: cs) = some k → Between front (c :: cs) →
      Between (front ++ (c :: cs).take k) ((c :: cs).drop k)

/-! ## 2. Texts without comments -/

/-- Whether no comment is met in a text, token by token.  After a malformed token nothing more is
met, as no reader gets there. -/
def isCommentFree : List Char → Bool
  | [] => true
  | c :: cs =>
    if c = ';' then false
    else if Token.isStart c then
      match h : Token.length? (c :: cs) with
      | some k =>
        have := Token.length?_pos h
        isCommentFree ((c :: cs).drop k)
      | none => true
    else isCommentFree cs
termination_by cs => cs.length
decreasing_by
  all_goals
    simp only [List.length_cons, List.length_drop]
    omega

theorem isCommentFree_comment (cs : List Char) : isCommentFree (';' :: cs) = false := by
  rw [isCommentFree, if_pos rfl]

theorem isCommentFree_sign {c : Char} (hc : isSign c = true) (cs : List Char) :
    isCommentFree (c :: cs) = isCommentFree cs := by
  rcases isSign_iff.mp hc with rfl | rfl | rfl | rfl | rfl <;> simp [isCommentFree, Token.isStart]

theorem isCommentFree_signs {signs : List Char} (hs : ∀ c ∈ signs, isSign c = true)
    (cs : List Char) :
    isCommentFree (signs ++ cs) = isCommentFree cs := by
  induction signs with
  | nil => rfl
  | cons c signs ih =>
    obtain ⟨hc, hs⟩ := List.forall_mem_cons.mp hs
    rw [List.cons_append, isCommentFree_sign hc, ih hs]

theorem isCommentFree_token {c : Char} {cs : List Char} {k : Nat} (hc : Token.isStart c = true)
    (h : Token.length? (c :: cs) = some k) :
    isCommentFree (c :: cs) = isCommentFree ((c :: cs).drop k) := by
  obtain ⟨-, -, -, -, -, hne⟩ := Token.isStart_iff.mp hc
  rw [isCommentFree, if_neg hne, if_pos hc]
  split
  · rename_i j hj
    rw [h] at hj
    cases hj
    rfl
  · rename_i hn
    rw [h] at hn
    cases hn

/-- **What a turn has left of a text without comments has none**, and no turn of such a text is at a
comment. -/
theorem isCommentFree_of_move {m : Option Nesting} {c : Char} {cs : List Char} {v : Move}
    (hv : move m c cs = .ok v) (h : isCommentFree (c :: cs) = true) :
    c ≠ ';' ∧ isCommentFree ((c :: cs).drop v.passed) = true := by
  have hne : c ≠ ';' := by
    rintro rfl
    rw [isCommentFree_comment] at h
    cases h
  refine ⟨hne, ?_⟩
  have hsign : isSign c = true → isCommentFree cs = true :=
    fun hc => by rwa [isCommentFree_sign hc] at h
  cases turn_of_move hv with
  | gap hc => exact hsign (isSign_iff.mpr (by simp [hc]))
  | blank hc => exact hsign (isSign_iff.mpr (Or.inr (Or.inr (or_assoc.mp (Or.inl hc)))))
  | classic | opening | closing => exact hsign rfl
  | indented => exact h
  | remark | comment => exact absurd rfl hne
  | @lineEnd n _ =>
    obtain ⟨j, k, hchunk⟩ := n.take_breakLine cs
    rw [← List.take_append_drop (n.breakLine ('\n' :: cs)).passed ('\n' :: cs),
      isCommentFree_signs] at h
    · exact h
    · intro d hd
      rw [hchunk] at hd
      rcases List.mem_append.mp hd with hd | hd <;> rw [List.eq_of_mem_replicate hd] <;> rfl
  | token hc hk =>
    rwa [isCommentFree_token hc hk] at h

theorem Passes.isCommentFree {front rest : List Char} {xs : List Stroke} {m m' : Option Nesting}
    (h : Passes m front xs m' rest) (hc : isCommentFree (front ++ rest) = true) :
    isCommentFree rest = true := by
  induction h with
  | refl => exact hc
  | turn _ hv ih =>
    rw [List.append_assoc, List.take_append_drop] at hc
    exact (isCommentFree_of_move hv (ih hc)).2

/-- A scan comes to no comment in such a text. -/
theorem Passes.not_isCommentFree {front cs : List Char} {xs : List Stroke} {m m' : Option Nesting}
    (h : Passes m front xs m' (';' :: cs)) :
    IndentLisp.isCommentFree (front ++ ';' :: cs) ≠ true := by
  intro hc
  have hfree := h.isCommentFree hc
  rw [isCommentFree_comment] at hfree
  cases hfree

namespace Between

variable {front rest : List Char}

/-- What follows a place of a text without comments has none. -/
theorem isCommentFree (h : Between front rest) (hc : isCommentFree (front ++ rest) = true) :
    isCommentFree rest = true := by
  induction h with
  | start => exact hc
  | sign hsign _ ih =>
    rw [List.append_assoc, List.singleton_append] at hc
    rw [← isCommentFree_sign hsign]
    exact ih hc
  | comment _ ih =>
    rw [List.append_assoc, List.cons_append, List.take_append_drop] at hc
    exact absurd (ih hc) (by simp [isCommentFree_comment])
  | token hstart hk _ ih =>
    rw [List.append_assoc, List.take_append_drop] at hc
    rw [← isCommentFree_token hstart hk]
    exact ih hc

/-- **The rest of a text without comments can be replaced** by another one without comments, if that
starts as before, or with a delimiter, or is empty.  Otherwise the last token before the place might
go on. -/
theorem isCommentFree_replace (h : Between front rest) {rest' : List Char}
    (hr : ∀ d, rest'.head? = some d → Token.isDelimiter d = true ∨ rest.head? = some d)
    (hc : IndentLisp.isCommentFree (front ++ rest) = true)
    (hc' : IndentLisp.isCommentFree rest' = true) :
    IndentLisp.isCommentFree (front ++ rest') = true := by
  induction h generalizing rest' with
  | start => exact hc'
  | sign hsign _ ih =>
    rw [List.append_assoc, List.singleton_append] at hc ⊢
    refine ih (fun d hd => Or.inr hd) hc ?_
    rwa [isCommentFree_sign hsign]
  | comment hbetween _ =>
    rw [List.append_assoc, List.cons_append, List.take_append_drop] at hc
    exact absurd (hbetween.isCommentFree hc) (by simp [isCommentFree_comment])
  | @token front cs c k hstart hk _ ih =>
    rw [List.append_assoc, List.take_append_drop] at hc
    rw [List.append_assoc]
    have htok := Token.length?_replace hk hr
    have hlen : ((c :: cs).take k).length = k := List.length_take_of_le (Token.length?_le hk)
    have hdrop : ((c :: cs).take k ++ rest').drop k = rest' := List.drop_left' hlen
    obtain ⟨j, rfl⟩ := Nat.exists_eq_succ_of_ne_zero (Nat.ne_of_gt (Token.length?_pos hk))
    rw [List.take_succ_cons, List.cons_append] at htok hdrop ⊢
    refine ih (fun d hd => Or.inr hd) hc ?_
    rwa [isCommentFree_token hstart htok, hdrop]

end Between

/-! ## 3. Places of a scan -/

/-- A scan that meets no offence has a turn wherever there is text left. -/
theorem exists_move {m : Option Nesting} {c : Char} {cs : List Char}
    (h : (scan m (c :: cs)).offence? = none) : ∃ v, move m c cs = .ok v := by
  cases hv : move m c cs with
  | ok v => exact ⟨v, rfl⟩
  | error o =>
    rw [scan] at h
    split at h
    · cases h
    · rename_i v hv'
      rw [hv] at hv'
      cases hv'

namespace Passes

variable {front rest : List Char} {xs : List Stroke} {m : Option Nesting}

/-- A scan that comes to a place without an offence on the whole text has none from there on. -/
theorem offence?_eq_none (h : Passes none front xs m rest)
    (ho : (scan none (front ++ rest)).offence? = none) : (scan m rest).offence? = none := by
  have hfound : (scan none (front ++ rest)).found.2 = none := ho
  rwa [h.found] at hfound

/-- Blanks are passed one by one. -/
theorem blanks {line : List Char} (hb : ∀ c ∈ line, c = ' ' ∨ c = '\t')
    (h : Passes none front xs m (line ++ rest)) : Passes none (front ++ line) xs m rest := by
  induction line generalizing front with
  | nil => rwa [List.append_nil]
  | cons c line ih =>
    obtain ⟨hc, hb⟩ := List.forall_mem_cons.mp hb
    have hturn := turn h (move_anyBlank hc m _)
    rw [List.append_nil] at hturn
    rw [← List.singleton_append, ← List.append_assoc]
    exact ih hb hturn

/-- A run of line ends, passed in one turn. -/
theorem turn_lineEnds {n : Nesting} {j : Nat} {v : Move}
    (h : Passes none front xs (some n) (List.replicate (j + 1) '\n' ++ rest))
    (hv : n.breakLine (List.replicate (j + 1) '\n' ++ rest) = v) :
    Passes none (front ++ (List.replicate (j + 1) '\n' ++ rest).take v.passed)
    (xs ++ v.strokes) v.next
      ((List.replicate (j + 1) '\n' ++ rest).drop v.passed) := by
  subst hv
  rw [List.replicate_succ, List.cons_append] at h ⊢
  exact turn h (move_breakLine n _)

/-- **Where a scan comes to after line ends and tabs in a block.**  Whether the block goes on or is
over is left open; that the scan comes there is enough for an edit of what follows. -/
theorem lineEnds {n : Nesting} (j i : Nat)
    (h : Passes none front xs (some n)
      (List.replicate (j + 1) '\n' ++ (List.replicate i '\t' ++ rest)))
    (ht : rest.head? ≠ some '\t') (hn : i = 0 → rest.head? ≠ some '\n') :
    ∃ xs' m', Passes none
      (front ++ (List.replicate (j + 1) '\n' ++ List.replicate i '\t')) xs' m' rest := by
  have htabs : ∀ {ys : List Stroke} {m' : Option Nesting},
      Passes none (front ++ List.replicate (j + 1) '\n') ys m' (List.replicate i '\t' ++ rest) →
      Passes none (front ++ (List.replicate (j + 1) '\n' ++ List.replicate i '\t')) ys m' rest := by
    intro ys m' hp
    rw [← List.append_assoc]
    exact blanks (fun c hc => Or.inr (List.eq_of_mem_replicate hc)) hp
  -- The tabs after the line ends are passed along with them, or are blanks of the next line.
  have hends : ∀ {ys : List Stroke} {m' : Option Nesting},
      n.breakLine (List.replicate (j + 1) '\n' ++ (List.replicate i '\t' ++ rest)) =
        ⟨j + 1, ys, m'⟩ →
      Passes none (front ++ (List.replicate (j + 1) '\n' ++ List.replicate i '\t'))
        (xs ++ ys) m' rest := by
    intro ys m' hv
    have hturn := turn_lineEnds h hv
    rw [drop_run, List.take_left' List.length_replicate] at hturn
    exact htabs hturn
  have hnext : (List.replicate i '\t' ++ rest).head? ≠ some '\n' := by
    cases i with
    | zero => exact hn rfl
    | succ i => simp [List.replicate_succ]
  cases hs : n.style with
  | classic =>
    by_cases h0 : n.opened = 0
    · exact ⟨_, _, hends (Nesting.breakLine_last j hnext (fun _ => h0) (by simp [hs]))⟩
    · exact ⟨_, _, hends (Nesting.breakLine_open j hs h0 hnext)⟩
  | indented =>
    cases i with
    | zero => exact ⟨_, _, hends (Nesting.breakLine_last j hnext (by simp [hs]) fun _ => ht)⟩
    | succ i =>
      have hturn := turn_lineEnds h (Nesting.breakLine_line j i hs ht)
      have hlen : (List.replicate (j + 1) '\n' ++ List.replicate (i + 1) '\t').length =
          j + 1 + (i + 1) := by
        simp
      obtain ⟨htake, hdrop⟩ := take_drop_append hlen rest
      rw [← List.append_assoc, htake, hdrop] at hturn
      exact ⟨_, _, hturn⟩

end Passes

/-- **The places between lexemes, as a scan comes to them**: there after a turn; or in a block among
line ends, or among the tabs after them; or in a block at the end of a comment.  In the latter two
cases the scan comes to the start of the turn. -/
inductive Located (front rest : List Char) : Prop
  | turn {m : Option Nesting} {xs : List Stroke} : Passes none front xs m rest → Located front rest
  | lineEnds {before : List Char} {n : Nesting} {j i : Nat} {xs : List Stroke} :
      front = before ++ (List.replicate (j + 1) '\n' ++ List.replicate i '\t') →
      Passes none before xs (some n)
        (List.replicate (j + 1) '\n' ++ (List.replicate i '\t' ++ rest)) →
      Located front rest
  | comment {before line : List Char} {n : Nesting} {xs : List Stroke} :
      front = before ++ ';' :: line → '\n' ∉ line → (∀ d, rest.head? = some d → d = '\n') →
      Passes none before xs (some n) (';' :: (line ++ rest)) → Located front rest

/-- A turn that goes on within a block after its first character. -/
theorem Passes.enter {front cs : List Char} {xs : List Stroke} {c : Char}
    (hc : c ≠ ' ' ∧ c ≠ '\t' ∧ c ≠ '\n' ∧ c ≠ ';') (ho : c ≠ '(')
    (h : Passes none front xs none (c :: cs)) :
    Passes none front (xs ++ [.enter]) (some ⟨.indented, 0, 0⟩) (c :: cs) := by
  have hturn := turn h (congrArg Except.ok (moveBetween_other hc ho cs))
  rwa [List.take_zero, List.append_nil] at hturn

/-- Past a comment in a block and its line end, any text could come. -/
theorem Passes.pastComment {front line cs : List Char} {xs : List Stroke} {n : Nesting}
    (h : Passes none front xs (some n) (';' :: (line ++ '\n' :: cs))) (hl : '\n' ∉ line)
    (rest : List Char) :
    Passes none (front ++ ';' :: line ++ ['\n']) xs (some n) rest := by
  have hturn := turn (h.replace rfl (Or.inl rfl)) (move_comment n hl rest)
  have hlen : (';' :: line ++ ['\n']).length = line.length + 2 := by simp
  obtain ⟨htake, hdrop⟩ := take_drop_append hlen rest
  rw [List.append_assoc, List.cons_append, List.singleton_append] at htake hdrop
  rw [htake, hdrop, List.append_nil] at hturn
  rwa [List.append_assoc]

namespace Located

variable {front cs : List Char} {c : Char}

/-- After a turn, the next one comes to where it has passed. -/
theorem of_turn {m : Option Nesting} {xs : List Stroke} {v : Move}
    (h : Passes none front xs m (c :: cs))
    (hv : move m c cs = .ok v) :
    Located (front ++ (c :: cs).take v.passed) ((c :: cs).drop v.passed) :=
  .turn (.turn h hv)

/-- A scan comes to a place before anything but a line end or a tab. -/
theorem passes (h : Located front (c :: cs)) (hn : c ≠ '\n') (ht : c ≠ '\t') :
    ∃ m xs, Passes none front xs m (c :: cs) := by
  cases h with
  | turn hp => exact ⟨_, _, hp⟩
  | lineEnds hfront hp =>
    obtain ⟨xs', m', hp'⟩ := hp.lineEnds _ _ (by simpa using ht) (fun _ => by simpa using hn)
    rw [← hfront] at hp'
    exact ⟨m', xs', hp'⟩
  | comment _ _ hend _ => exact absurd (hend c rfl) hn

/-- Past a token. -/
theorem token {k : Nat} (h : Located front (c :: cs)) (hc : Token.isStart c = true)
    (hk : Token.length? (c :: cs) = some k) :
    Located (front ++ (c :: cs).take k) ((c :: cs).drop k) := by
  obtain ⟨ho, -, h1, h2, h3, h4⟩ := Token.isStart_iff.mp hc
  obtain ⟨m, xs, hp⟩ := h.passes h3 h2
  cases m with
  | some n => exact of_turn hp (move_token hc hk n)
  | none => exact of_turn (hp.enter ⟨h1, h2, h3, h4⟩ ho) (move_token hc hk _)

/-- Past a comment, up to its line end. -/
theorem remark (h : Located front (';' :: cs)) :
    Located (front ++ ';' :: cs.take (lineLength cs)) (cs.drop (lineLength cs)) := by
  obtain ⟨m, xs, hp⟩ := h.passes (by decide) (by decide)
  cases m with
  | none =>
    have hturn := of_turn hp (congrArg Except.ok (moveBetween_comment cs))
    rwa [lineLength_comment, List.take_succ_cons, List.drop_succ_cons] at hturn
  | some n =>
    refine .comment rfl (notMem_line cs) ?_ (by rwa [List.take_append_drop])
    intro d hd
    rcases drop_lineLength cs with hnil | ⟨ds, hds⟩
    · simp [hnil] at hd
    · rw [hds] at hd
      exact (Option.some.inj hd).symm

/-- **Before a line end** a scan comes to the place, or in a block to the line ends right before it,
or to the comment that it ends.  Between blocks each line end is a turn of its own. -/
theorem before_lineEnd (h : Located front ('\n' :: cs)) :
    (∃ before j m xs, front = before ++ List.replicate j '\n' ∧ (m = none → j = 0) ∧
      Passes none before xs m (List.replicate (j + 1) '\n' ++ cs)) ∨
    ∃ before line n xs, front = before ++ ';' :: line ∧ '\n' ∉ line ∧
      Passes none before xs (some n) (';' :: (line ++ '\n' :: cs)) := by
  have here : ∀ {m : Option Nesting} {xs : List Stroke}, Passes none front xs m ('\n' :: cs) →
      ∃ before j m xs, front = before ++ List.replicate j '\n' ∧ (m = none → j = 0) ∧
        Passes none before xs m (List.replicate (j + 1) '\n' ++ cs) :=
    fun hp => ⟨front, 0, _, _, (List.append_nil _).symm, fun _ => rfl, hp⟩
  cases h with
  | turn hp => exact Or.inl (here hp)
  | @lineEnds before n j i xs hfront hp =>
    cases i with
    | zero =>
      rw [List.replicate_zero, List.append_nil] at hfront
      refine Or.inl ⟨before, j + 1, some n, xs, hfront, nofun, ?_⟩
      rw [List.replicate_succ', List.append_assoc]
      exact hp
    | succ i =>
      -- The tabs end the run.
      obtain ⟨xs', m', hp'⟩ := hp.lineEnds j (i + 1) (by simp) (by simp)
      rw [← hfront] at hp'
      exact Or.inl (here hp')
  | comment hfront hline _ hp => exact Or.inr ⟨_, _, _, _, hfront, hline, hp⟩

/-- Past a line end. -/
theorem lineEnd (h : Located front ('\n' :: cs)) : Located (front ++ ['\n']) cs := by
  rcases h.before_lineEnd with ⟨before, j, m, xs, rfl, hm, hp⟩ | ⟨_, _, _, _, rfl, hline, hp⟩
  · cases m with
    | none =>
      obtain rfl : j = 0 := hm rfl
      rw [List.replicate_zero, List.append_nil]
      exact of_turn hp (move_gap (by simp) cs)
    | some n =>
      have hfront : before ++ List.replicate j '\n' ++ ['\n'] =
          before ++ (List.replicate (j + 1) '\n' ++ List.replicate 0 '\t') := by
        rw [List.replicate_succ', List.replicate_zero, List.append_nil, List.append_assoc]
      exact .lineEnds hfront hp
  · exact .turn (hp.pastComment hline cs)

/-- Past a tab, which may be one of those after line ends. -/
theorem tab (h : Located front ('\t' :: cs)) : Located (front ++ ['\t']) cs := by
  cases h with
  | turn hp => exact of_turn hp (move_anyBlank (Or.inr rfl) _ cs)
  | @lineEnds before n j i xs hfront hp =>
    have hrun : List.replicate (i + 1) '\t' = List.replicate i '\t' ++ ['\t'] :=
      List.replicate_succ'
    have hfront' : front ++ ['\t'] =
        before ++ (List.replicate (j + 1) '\n' ++ List.replicate (i + 1) '\t') := by
      rw [hfront, hrun, List.append_assoc, List.append_assoc]
    have hp' : Passes none before xs (some n)
        (List.replicate (j + 1) '\n' ++ (List.replicate (i + 1) '\t' ++ cs)) := by
      rw [hrun, List.append_assoc (List.replicate i '\t')]
      exact hp
    exact .lineEnds hfront' hp'
  | comment _ _ hend _ => exact absurd (hend _ rfl) (by decide)

/-- Past a parenthesis, a blank or a line end. -/
theorem sign (h : Located front (c :: cs)) (hc : isSign c = true)
    (ho : (scan none (front ++ c :: cs)).offence? = none) : Located (front ++ [c]) cs := by
  rcases isSign_iff.mp hc with rfl | rfl | rfl | rfl | rfl
  · obtain ⟨m, xs, hp⟩ := h.passes (by decide) (by decide)
    cases m with
    | none => exact of_turn hp (move_start cs)
    | some n =>
      have hmove : move (some n) '(' cs =
          .ok ⟨1, [.enter], some { n with opened := n.opened + 1 }⟩ := by
        simp [move, Nesting.move]
      exact of_turn hp hmove
  · obtain ⟨m, xs, hp⟩ := h.passes (by decide) (by decide)
    -- A block starts here if there is none, so that the parenthesis is one of a block.
    obtain ⟨n, xs', hp'⟩ : ∃ n xs', Passes none front xs' (some n) (')' :: cs) := by
      cases m with
      | none => exact ⟨_, _, hp.enter (by decide) (by decide)⟩
      | some n => exact ⟨n, xs, hp⟩
    obtain ⟨v, hv⟩ := exists_move (hp'.offence?_eq_none ho)
    cases turn_of_move hv with
    | closing h0 => exact of_turn hp' hv
    | blank hb => exact absurd hb (by decide)
    | token hstart _ => exact absurd hstart (by decide)
  · obtain ⟨m, xs, hp⟩ := h.passes (by decide) (by decide)
    exact of_turn hp (move_anyBlank (Or.inl rfl) m cs)
  · exact h.tab
  · exact h.lineEnd

end Located

/-- **Any place between lexemes is one to which a scan comes**, by its turns or in the midst of one,
in a text without an offence.  The induction is on the place. -/
theorem Between.located {front rest : List Char} (h : Between front rest)
    (ho : (scan none (front ++ rest)).offence? = none) : Located front rest := by
  induction h with
  | start => exact .turn .refl
  | sign hc _ ih =>
    rw [List.append_assoc, List.singleton_append] at ho
    exact (ih ho).sign hc ho
  | comment _ ih =>
    rw [List.append_assoc, List.cons_append, List.take_append_drop] at ho
    exact (ih ho).remark
  | token hc hk _ ih =>
    rw [List.append_assoc, List.take_append_drop] at ho
    exact (ih ho).token hc hk

end IndentLisp

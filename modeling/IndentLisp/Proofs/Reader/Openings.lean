/-
# Lines that lead down to a deeper one

A line of an indented block opens its lists at the depth that its tabs give.  Two texts that are the
same but for the depth at which a line stands have to be told apart, or told to be the same, by what
comes after that depth; this is where a comment is taken out whose line break is then met by the
reader, or is not.

Up to the end of the line a block does the same at every depth (`found_restOfLine`): a token, a
parenthesis, a blank and a comment draw what they draw without a look at it.  So the depth matters
only to the next line.  That line starts by ending lists and starting one, if it is not deeper, and
by starting lists alone if it is; and in the second case, at a depth that is greater by one the line
starts one list less, since that list was started when the depth was reached.  Where nothing stands
between the two places but lists that start, it cannot be told at which of them it was.

Hence **two depths draw the same just if the line holds nothing but opening parentheses and leads to
a line deeper than both** (`found_deeper_iff`), and a line of its own is missed unless this is so
(`found_line_iff`).  The one direction is a count of the lists that start; for the other one,
strokes that differ in how many lists they start with are told apart by the first other stroke.

Nothing is claimed here of blocks that are told apart by their parentheses: a classic block has no
depth, and the number of open parentheses is the same in both readings throughout.

* `dropOpenings`, `leadsTo`: the tabs of the line that a line of opening parentheses leads to.
* `found_restOfLine`: the rest of a line, at every depth at once.
* `Stroke.deeper_of_line`: lines of different depths that start alike.
-/
import IndentLisp.Proofs.Reader.Retrace

namespace IndentLisp

/-! ## 1. Lines of opening parentheses -/

/-- Within an indented block at a depth, with so many parentheses of its own open. -/
def inLine (depth opened : Nat) : Option Nesting :=
  some ⟨.indented, depth, opened⟩

/-- What comes after the blanks, comments and opening parentheses at the front of a text. -/
def dropOpenings (cs : List Char) : List Char :=
  dropThrough (fun c => (c = ' ' ∨ c = '\t') ∨ c = '(') cs

/-- How many tabs the line starts with that comes after a line of nothing but opening parentheses.
Where the line holds anything else there are none. -/
def leadsTo (cs : List Char) : Nat :=
  nextTabs (dropOpenings cs)

/-- An opening parenthesis in an indented block. -/
theorem found_opening (depth o : Nat) (cs : List Char) :
    (scan (inLine depth o) ('(' :: cs)).found =
      Stroke.before [.enter] (scan (inLine depth (o + 1)) cs).found := by
  have hmove : move (inLine depth o) '(' cs = .ok ⟨1, [.enter], inLine depth (o + 1)⟩ := by
    simp [move, Nesting.move, inLine]
  rw [scan_ok hmove, Scan.found_after]
  rfl

/-- The tabs of a line are dropped with its opening parentheses. -/
theorem leadsTo_tabs (k : Nat) (cs : List Char) :
    leadsTo (List.replicate k '\t' ++ cs) = leadsTo cs := by
  induction k with
  | zero => rfl
  | succ k ih =>
    rw [List.replicate_succ, List.cons_append, ← ih, leadsTo, dropOpenings, dropThrough.eq_2]
    rfl

/-- Before a line end, or the end of the text, nothing is dropped. -/
theorem leadsTo_of_lineEnd {cs : List Char} (h : ∀ c, cs.head? = some c → c = '\n') :
    leadsTo cs = nextTabs cs := by
  cases cs with
  | nil => rw [leadsTo, dropOpenings, dropThrough]
  | cons c cs =>
    obtain rfl : c = '\n' := h c rfl
    rw [leadsTo, dropOpenings, dropThrough.eq_2]
    rfl

/-- **Opening parentheses draw the same at every depth.** -/
theorem found_dropOpenings (o : Nat) (cs : List Char) : ∃ e, ∀ depth,
    (scan (inLine depth o) cs).found =
      Stroke.before (List.replicate e .enter)
        (scan (inLine depth (o + e)) (dropOpenings cs)).found := by
  unfold dropOpenings
  fun_induction dropThrough (fun c => (c = ' ' ∨ c = '\t') ∨ c = '(') cs generalizing o with
  | case1 => exact ⟨0, fun depth => rfl⟩
  | case2 c cs hc ih =>
    rcases of_decide_eq_true hc with hb | rfl
    · obtain ⟨e, he⟩ := ih o
      exact ⟨e, fun depth => by rw [found_blank hb, he]⟩
    · obtain ⟨e, he⟩ := ih (o + 1)
      refine ⟨e + 1, fun depth => ?_⟩
      rw [found_opening, he, List.replicate_succ, Nat.add_right_comm, Nat.add_assoc]
      rfl
  | case3 cs hc ih =>
    obtain ⟨e, he⟩ := ih o
    exact ⟨e, fun depth => by rw [found_comment, he]⟩
  | case4 c cs hc hs => exact ⟨0, fun depth => rfl⟩

/-- A line that leads to a deeper one holds nothing but opening parentheses. -/
theorem head_dropOpenings {cs : List Char} (h : leadsTo cs ≠ 0) :
    ∀ c, (dropOpenings cs).head? = some c → c = '\n' := by
  intro c hc
  by_contra hn
  obtain ⟨ds, hds⟩ := List.head?_eq_some_iff.mp hc
  have htab : c ≠ '\t' := by
    rintro rfl
    exact absurd (head_dropThrough hds).1 (by decide)
  have hzero : tabsOf (dropOpenings cs) = 0 := by
    rw [hds, tabsOf, List.takeWhile_cons_of_neg (by simpa using htab)]
    rfl
  rw [leadsTo, nextTabs_of_head (by rw [hc]; simpa using hn)] at h
  exact h hzero

/-- **A line of opening parentheses that leads to a deeper line draws as much, at whatever depth
less than that it stands**, if the lists that lead down to it are counted in. -/
theorem found_leadsTo (o : Nat) (cs : List Char) : ∃ found : List Stroke × Option Offence,
    ∀ top depth, top ≤ depth → depth < leadsTo cs →
      Stroke.before (List.replicate (depth - top) .enter) (scan (inLine depth o) cs).found =
      Stroke.before (List.replicate (leadsTo cs - top) .enter) found := by
  obtain ⟨e, he⟩ := found_dropOpenings o cs
  refine ⟨Stroke.before (List.replicate e .enter)
    (scan (inLine (leadsTo cs) (o + e)) (nextText (dropOpenings cs))).found, ?_⟩
  intro top depth htop hdepth
  have h0 : leadsTo cs ≠ 0 := Nat.ne_of_gt (Nat.zero_lt_of_lt hdepth)
  have hend := found_lineEnd (n := ⟨.indented, depth, o + e⟩) rfl (head_dropOpenings h0)
  have hstrokes : (⟨.indented, depth, o + e⟩ : Nesting).lineStrokes (leadsTo cs) =
      List.replicate (leadsTo cs - depth) .enter := by
    rw [Nesting.lineStrokes, if_neg h0, Stroke.line, if_pos hdepth]
  have honto : (⟨.indented, depth, o + e⟩ : Nesting).onLine (leadsTo cs) =
      inLine (leadsTo cs) (o + e) := if_neg h0
  rw [show nextTabs (dropOpenings cs) = leadsTo cs from rfl, hstrokes, honto] at hend
  rw [he depth, inLine, hend]
  simp only [← Stroke.before_append, List.replicate_append_replicate]
  congr 2
  omega

/-! ## 2. The rest of a line -/

/-- **Up to the end of the line a block does the same at every depth**, and where it draws nothing
but lists that start, the line holds nothing but opening parentheses. -/
theorem found_restOfLine {depth o : Nat} {cs : List Char}
    (ho : (scan (inLine depth o) cs).offence? = none) :
    ∃ xs o' rest, (∀ c, rest.head? = some c → c = '\n') ∧
      ((∀ x ∈ xs, x = .enter) → rest = dropOpenings cs) ∧
      ∀ depth', (scan (inLine depth' o) cs).found =
        Stroke.before xs (scan (inLine depth' o') rest).found := by
  generalize hm : inLine depth o = m at ho
  fun_induction scan m cs generalizing o with
  | case1 m => exact ⟨[], o, [], by simp, fun _ => by rw [dropOpenings, dropThrough], fun _ => rfl⟩
  | case2 m c cs f hv => cases ho
  | case3 m c cs v hv ih =>
    subst hm
    -- A turn that stays on the line does the same at every depth.
    have hstep : ∀ (o₁ : Nat), v.next = inLine depth o₁ →
        (∀ depth', move (inLine depth' o) c cs = .ok ⟨v.passed, v.strokes, inLine depth' o₁⟩) →
        ((∀ x ∈ v.strokes, x = .enter) →
          dropOpenings ((c :: cs).drop v.passed) = dropOpenings (c :: cs)) →
        ∃ xs o' rest, (∀ c, rest.head? = some c → c = '\n') ∧
          ((∀ x ∈ xs, x = .enter) → rest = dropOpenings (c :: cs)) ∧
          ∀ depth', (scan (inLine depth' o) (c :: cs)).found =
            Stroke.before xs (scan (inLine depth' o') rest).found := by
      intro o₁ hnext hmove hdrop
      obtain ⟨xs, o', rest, hrest, henter, hfound⟩ := ih hnext.symm ho
      refine ⟨v.strokes ++ xs, o', rest, hrest, fun hall => ?_, fun depth' => ?_⟩
      · rw [henter fun x hx => hall x (List.mem_append_right _ hx)]
        exact hdrop fun x hx => hall x (List.mem_append_left _ hx)
      · rw [scan_ok (hmove depth'), Scan.found_after, hfound, Stroke.before_append]
    cases turn_of_move hv with
    | opening =>
      refine hstep (o + 1) rfl (fun d => by simp [move, Nesting.move, inLine]) fun _ => ?_
      rw [dropOpenings, dropOpenings, dropThrough.eq_2]
      rfl
    | closing h0 =>
      have h0 : o ≠ 0 := h0
      refine hstep (o - 1) rfl (fun d => by simp [move, Nesting.move, inLine, h0]) fun hall => ?_
      cases hall .leave (List.mem_singleton_self _)
    | blank hb =>
      refine hstep o rfl (fun d => move_blank hb cs _) fun _ => ?_
      rw [dropOpenings, dropOpenings, dropThrough.eq_2, if_pos (by simp [hb])]
      rfl
    | comment =>
      refine hstep o rfl (fun d => by simp [move, Nesting.move, inLine]) fun _ => ?_
      rw [lineLength_comment, List.drop_succ_cons, ← nextLines, dropOpenings, dropOpenings,
        dropThrough.eq_2]
      rfl
    | token hc hk =>
      refine hstep o rfl (fun d => move_token hc hk _) fun hall => ?_
      cases hall (.leaf _) (List.mem_singleton_self _)
    | lineEnd =>
      refine ⟨[], o, '\n' :: cs, by simp, fun _ => ?_, fun _ => rfl⟩
      rw [dropOpenings, dropThrough.eq_2]
      rfl

/-- Lists that start before some strokes, more of them or less, can be told from each other if the
strokes hold anything else. -/
theorem Data.eq_enter_of_append {i j : Nat} (hij : i ≠ j) {xs ys zs : List Stroke}
    (h : List.replicate i .enter ++ (xs ++ ys) = List.replicate j .enter ++ (xs ++ zs)) :
    ∀ x ∈ xs, x = .enter := by
  by_contra hall
  have hother : ∃ x ∈ xs, x ≠ .enter := by simpa using hall
  have hleading := congrArg leading h
  rw [leading_enter, leading_enter, leading_append hother, leading_append hother] at hleading
  exact hij (Nat.add_right_cancel hleading)

/-- What is found at the end of a line, as strokes of the next line and others that the depth of the
block has no part in. -/
theorem found_lineEnd_length {depth o : Nat} {rest : List Char}
    (hrest : ∀ c, rest.head? = some c → c = '\n') :
    (scan (inLine depth o) rest).found.1.length =
      ((⟨.indented, depth, o⟩ : Nesting).lineStrokes (nextTabs rest)).length +
        (scan ((⟨.indented, 0, o⟩ : Nesting).onLine (nextTabs rest))
          (nextText rest)).found.1.length := by
  have hfound := found_lineEnd (n := ⟨.indented, depth, o⟩) rfl hrest
  rw [inLine, hfound, Stroke.length_before]
  rfl

/-! ## 3. Two depths -/

/-- **Two depths make no difference just if the line leads to one that is deeper than both.**  The
lists down to each of the depths are counted in, from one that is less than both. -/
theorem found_deeper_iff {top a b o : Nat} {cs : List Char} (ha : top ≤ a) (hb : top ≤ b)
    (hne : a ≠ b) (ho : (scan (inLine a o) cs).offence? = none) :
    Stroke.before (List.replicate (a - top) .enter) (scan (inLine a o) cs).found =
      Stroke.before (List.replicate (b - top) .enter) (scan (inLine b o) cs).found ↔
      a < leadsTo cs ∧ b < leadsTo cs := by
  constructor
  · intro h
    obtain ⟨xs, o', rest, hrest, henter, hfound⟩ := found_restOfLine ho
    have hstrokes := congrArg Prod.fst h
    rw [hfound a, hfound b] at hstrokes
    obtain rfl : rest = dropOpenings cs :=
      henter (Data.eq_enter_of_append (by omega) hstrokes)
    -- So the strokes on the line are as many, and the two lines must lead down by as many lists.
    have hline : ∀ d, ((⟨.indented, d, o'⟩ : Nesting).lineStrokes (leadsTo cs)).length = _ :=
      fun _ => Nesting.length_lineStrokes rfl (leadsTo cs)
    have hlength := congrArg List.length hstrokes
    simp only [Stroke.length_before, List.length_replicate, found_lineEnd_length hrest] at hlength
    rw [← leadsTo, hline a, hline b] at hlength
    simp only at hlength
    split_ifs at hlength <;> omega
  · rintro ⟨ha', hb'⟩
    obtain ⟨found, hfound⟩ := found_leadsTo o cs
    rw [hfound top a ha ha', hfound top b hb hb']

/-- **A line of its own makes no difference just if it is deeper than the one before it and leads to
one that is deeper still.** -/
theorem found_line_iff {depth tabs o : Nat} {cs : List Char} (ht : tabs ≠ 0)
    (ho : (scan (inLine depth o) cs).offence? = none) :
    Stroke.before (Stroke.line depth tabs) (scan (inLine tabs o) cs).found =
      (scan (inLine depth o) cs).found ↔ depth < tabs ∧ tabs < leadsTo cs := by
  have hshift : ∀ (hd : depth < tabs),
      Stroke.before (Stroke.line depth tabs) (scan (inLine tabs o) cs).found =
        (scan (inLine depth o) cs).found ↔
      depth < leadsTo cs ∧ tabs < leadsTo cs := by
    intro hd
    have hiff := found_deeper_iff (Nat.le_refl depth) (Nat.le_of_lt hd) (Nat.ne_of_lt hd) ho
    rw [Nat.sub_self, List.replicate_zero] at hiff
    rw [Stroke.line, if_pos hd, eq_comm]
    exact hiff
  constructor
  · intro h
    obtain ⟨xs, o', rest, hrest, -, hfound⟩ := found_restOfLine ho
    have hlength := congrArg (fun found => found.1.length) h
    simp only [hfound, Stroke.length_before, found_lineEnd_length hrest] at hlength
    have hline : Stroke.line depth tabs = (⟨.indented, depth, o'⟩ : Nesting).lineStrokes tabs :=
      (if_neg ht).symm
    rw [hline] at hlength
    have hd : depth < tabs :=
      (Nesting.deeper_of_length (n := ⟨.indented, depth, o'⟩) (k := nextTabs rest) rfl ht
        (by simp only; omega)).1
    exact ⟨hd, ((hshift hd).mp h).2⟩
  · rintro ⟨hd, hlead⟩
    exact (hshift hd).mpr ⟨Nat.lt_trans hd hlead, hlead⟩

/-- How many lists end can be told by the next one that starts. -/
theorem Stroke.eq_of_leaves {i k : Nat} {xs ys : List Stroke}
    (h : List.replicate i .leave ++ .enter :: xs = List.replicate k .leave ++ .enter :: ys) :
    i = k := by
  induction i generalizing k with
  | zero => cases k <;> simp [List.replicate_succ] at h ⊢
  | succ i ih =>
    cases k with
    | zero => simp [List.replicate_succ] at h
    | succ k =>
      rw [List.replicate_succ, List.replicate_succ, List.cons_append, List.cons_append] at h
      rw [ih (List.cons.inj h).2]

/-- Lines of different depths start differently, if not both of them are deeper than the block. -/
theorem Stroke.deeper_of_line {depth i k : Nat} (hne : i ≠ k) {xs ys : List Stroke}
    (h : Stroke.line depth i ++ xs = Stroke.line depth k ++ ys) : depth < i ∧ depth < k := by
  unfold Stroke.line at h
  split_ifs at h with hi hk hk
  · exact ⟨hi, hk⟩
  · obtain ⟨j, hj⟩ := Nat.exists_eq_succ_of_ne_zero (Nat.sub_ne_zero_of_lt hi)
    simp [hj, List.replicate_succ] at h
  · obtain ⟨j, hj⟩ := Nat.exists_eq_succ_of_ne_zero (Nat.sub_ne_zero_of_lt hk)
    simp [hj, List.replicate_succ] at h
  · rw [List.append_assoc, List.append_assoc] at h
    have heq : depth - i + 1 = depth - k + 1 := Stroke.eq_of_leaves h
    omega

/-- **Two lines of different depths make no difference just if both are deeper than the one before
them and lead to one that is deeper still.** -/
theorem found_lines_iff {depth i k o : Nat} (hne : i ≠ k) {cs : List Char}
    (ho : (scan (inLine i o) cs).offence? = none) :
    Stroke.before (Stroke.line depth i) (scan (inLine i o) cs).found =
        Stroke.before (Stroke.line depth k) (scan (inLine k o) cs).found ↔
      (depth < i ∧ i < leadsTo cs) ∧ depth < k ∧ k < leadsTo cs := by
  by_cases hdeeper : depth < i ∧ depth < k
  · obtain ⟨hi, hk⟩ := hdeeper
    rw [Stroke.line, Stroke.line, if_pos hi, if_pos hk,
      found_deeper_iff (Nat.le_of_lt hi) (Nat.le_of_lt hk) hne ho]
    simp only [hi, hk, true_and]
  · refine iff_of_false (fun h => hdeeper ?_) fun h => hdeeper ⟨h.1.1, h.2.1⟩
    exact Stroke.deeper_of_line hne (congrArg Prod.fst h)

end IndentLisp

/-
# Reading back what was written

The classic form of a datum is read back to the datum, however deep it is, as long as its leaves are
valid tokens.  Within a list this is an equation of scans (`scan_classicOnto`): **the classic form
of a datum is passed like one turn that draws its strokes**, whatever comes next.  At the outside
there are two cases, as a lone leaf does not start with a parenthesis and so is read as an indented
block (`scan_classicBlock`).

The equation is proved by recursion on the datum, one statement for a datum and one for the items of
a list, with what comes next as a parameter: it must not go on with the last token, so it starts
with a delimiter or is empty.  Within a classic form what comes next is a space or a parenthesis.

What is read back is the datum without the lists around a lone item, since unwrapping comes last;
and what a reader makes has been unwrapped already, so for data that were read nothing is lost.

* `read_classic_data`: any datum with valid leaves is read back.
* `valid_leaf`: **a reader only makes valid leaves**, also of a text that it rejects in the end.
* `read_classic`: **the round trip**, both facts together: printing what was read and reading it
  again changes nothing, and neither does printing it once more.
-/
import IndentLisp.Proofs.Reader.SourceOrder
import IndentLisp.Proofs.Tree.Strokes

namespace IndentLisp

/-! ## 1. Scans of classic forms -/

/-- Two turns as one. -/
def Move.followedBy (v w : Move) : Move :=
  ⟨v.passed + w.passed, v.strokes ++ w.strokes, w.next⟩

namespace Scan

theorem after_after (s : Scan) (v w : Move) : (s.after w).after v = s.after (v.followedBy w) := by
  simp [after, Move.followedBy, Nat.add_assoc]

theorem after_stay (s : Scan) (m : Option Nesting) : s.after ⟨0, [], m⟩ = s := by
  simp [after]

end Scan

/-- A valid token is one turn of any block, if what follows it cannot be taken for more of it. -/
theorem scan_token {s : String} (hs : Token.Valid s) {rest : List Char}
    (hr : ∀ c, rest.head? = some c → Token.isDelimiter c = true) (n : Nesting) :
    scan (some n) (s.toList ++ rest) =
      (scan (some n) rest).after ⟨s.toList.length, [.leaf s], some n⟩ := by
  obtain ⟨c, cs, hcs, hc⟩ := hs.exists_cons
  have hl := hs.length?_append hr
  have hmove : move (some n) c (cs ++ rest) =
      .ok ⟨s.toList.length, [.leaf s], some n⟩ := by
    rw [hcs, List.cons_append] at hl
    rw [move_token hc hl, ← List.cons_append, ← hcs, List.take_left, String.ofList_toList]
  have hscan := scan_ok hmove
  rw [← List.cons_append, ← hcs, List.drop_left] at hscan
  exact hscan

mutual

/-- **The classic form of a datum is passed like one turn**, in a classic block in which any number
of parentheses are open, and draws the strokes of the datum. -/
theorem scan_classicOnto (x : Data) (hx : ∀ s ∈ x.texts, Token.Valid s) {rest : List Char}
    (hr : ∀ c, rest.head? = some c → Token.isDelimiter c = true) (k : Nat) :
    scan (inParens k) (x.classicOnto rest) =
      (scan (inParens k) rest).after ⟨(x.classicOnto []).length, x.strokes, inParens k⟩ :=
  match x with
  | .leaf s => by
    have hs : Token.Valid s := hx s (by simp [Data.texts])
    simpa [Data.classicOnto, Data.strokes, inParens] using scan_token hs hr ⟨.classic, 0, k⟩
  | .list items => by
    have hclose : ∀ c, (')' :: rest).head? = some c → Token.isDelimiter c = true := by
      simp [Token.isDelimiter]
    have hlen : (Data.classicItems [')'] items).length =
        (Data.classicItems [] items).length + 1 := by
      rw [Data.classicItems_eq, List.length_append]
      rfl
    rw [Data.classicOnto, scan_ok (move_opening k _), List.drop_one, List.tail_cons,
      scan_classicItems items hx hclose (k + 1), scan_ok (move_closing k _), List.drop_one,
      List.tail_cons, Scan.after_after, Scan.after_after]
    simp [Move.followedBy, Data.classicOnto, Data.strokes, hlen, Nat.add_comm]

/-- The classic forms of items. -/
theorem scan_classicItems (xs : List Data) (hx : ∀ s ∈ Data.textsOf xs, Token.Valid s)
    {rest : List Char} (hr : ∀ c, rest.head? = some c → Token.isDelimiter c = true) (k : Nat) :
    scan (inParens k) (Data.classicItems rest xs) =
      (scan (inParens k) rest).after
        ⟨(Data.classicItems [] xs).length, Data.strokesOf xs, inParens k⟩ :=
  match xs with
  | [] => by
    rw [Data.classicItems, Data.classicItems, Data.strokesOf]
    exact (Scan.after_stay _ _).symm
  | [x] => by
    have h1 := scan_classicOnto x (fun s hs => hx s (by simp [Data.textsOf, hs])) hr k
    simpa [Data.classicItems, Data.strokesOf] using h1
  | x :: y :: zs => by
    have hspace : ∀ c, (' ' :: Data.classicItems rest (y :: zs)).head? = some c →
        Token.isDelimiter c = true := by
      simp [Token.isDelimiter]
    have h1 := scan_classicOnto x (fun s hs => hx s (by simp [Data.textsOf, hs])) hspace k
    have h2 := scan_classicItems (y :: zs) (fun s hs => hx s (List.mem_append_right _ hs)) hr k
    have hlen : (x.classicOnto (' ' :: Data.classicItems [] (y :: zs))).length =
        (x.classicOnto []).length + (1 + (Data.classicItems [] (y :: zs)).length) := by
      rw [Data.classicOnto_eq, List.length_append, List.length_cons, Nat.add_comm 1]
    have hblank : scan (inParens k) (' ' :: Data.classicItems rest (y :: zs)) =
        (scan (inParens k) (Data.classicItems rest (y :: zs))).after ⟨1, [], inParens k⟩ :=
      scan_ok (move_blank (.inl rfl) _ _)
    rw [Data.classicItems, h1, hblank, h2, Scan.after_after, Scan.after_after]
    simp [Move.followedBy, Data.classicItems, Data.strokesOf, hlen, Nat.add_assoc]

end

/-- What the classic form of a datum is drawn as: a lone leaf starts a block, whose list then holds
it. -/
def Data.asBlock : Data → Data
  | .leaf s => .list [.leaf s]
  | .list items => .list items

/-- Unwrapping takes the list of the block away again. -/
theorem Data.unwrap_list_asBlock (x : Data) : (Data.list [x.asBlock]).unwrap = x.unwrap := by
  cases x <;> simp [asBlock, unwrap]

/-- The block that a classic form is once it is passed. -/
def Data.nesting : Data → Nesting
  | .leaf _ => ⟨.indented, 0, 0⟩
  | .list _ => ⟨.classic, 0, 0⟩

/-- **A classic form is a block**, and drawn as the datum that it was made from when that block
ends.  What comes after it decides when it does: a line end, or the end of the text. -/
theorem scan_classicBlock (x : Data) (hx : ∀ s ∈ x.texts, Token.Valid s) {rest : List Char}
    (hr : ∀ c, rest.head? = some c → Token.isDelimiter c = true) :
    ∃ k xs, scan none (x.classicOnto rest) =
        (scan (some x.nesting) rest).after ⟨k, xs, some x.nesting⟩ ∧
      xs ++ List.replicate x.nesting.level .leave = x.asBlock.strokes := by
  cases x with
  | leaf s =>
    have hs : Token.Valid s := hx s (by simp [Data.texts])
    obtain ⟨c, cs, hcs, hc⟩ := hs.exists_cons
    have hl := hs.length?_append hr
    rw [hcs, List.cons_append] at hl
    have hstart : scan none (s.toList ++ rest) =
        (scan (some ⟨.indented, 0, 0⟩) (s.toList ++ rest)).after
          ⟨0, [.enter], some ⟨.indented, 0, 0⟩⟩ := by
      rw [hcs, List.cons_append]
      exact scan_ok (by simp [move, moveBetween, Front.of_token hc hl])
    refine ⟨0 + s.toList.length, [.enter, .leaf s], ?_, rfl⟩
    rw [Data.classicOnto, hstart, scan_token hs hr, Scan.after_after]
    rfl
  | list items =>
    have hclose : ∀ c, (')' :: rest).head? = some c → Token.isDelimiter c = true := by
      simp [Token.isDelimiter]
    have hstart : scan none ('(' :: Data.classicItems (')' :: rest) items) =
        (scan (inParens 1) (Data.classicItems (')' :: rest) items)).after
          ⟨1, [.enter], inParens 1⟩ :=
      scan_ok (move_start _)
    have hend : scan (inParens 1) (')' :: rest) =
        (scan (inParens 0) rest).after ⟨1, [.leave], inParens 0⟩ :=
      scan_ok (move_closing 0 rest)
    refine ⟨1 + (Data.classicItems [] items).length + 1,
      [.enter] ++ Data.strokesOf items ++ [.leave], ?_, ?_⟩
    · rw [Data.classicOnto, hstart, scan_classicItems items hx hclose 1, hend, Scan.after_after,
        Scan.after_after]
      rfl
    · simp [Data.asBlock, Data.strokes, Data.nesting, Nesting.level]

/-- **A classic form is read without offence.** -/
theorem scan_classic (x : Data) (hx : ∀ s ∈ x.texts, Token.Valid s) :
    (scan none (x.classicOnto [])).strokes = x.asBlock.strokes ∧
      (scan none (x.classicOnto [])).offence? = none := by
  have hend : ∀ c, ([] : List Char).head? = some c → Token.isDelimiter c = true := by
    simp
  obtain ⟨k, xs, hscan, hxs⟩ := scan_classicBlock x hx hend
  rw [hscan, scan_nil]
  exact ⟨hxs, rfl⟩

/-! ## 2. Texts of classic forms -/

mutual

/-- A classic form has no line ends but those of its leaves. -/
theorem Data.notMem_classicOnto (x : Data) (hx : ∀ s ∈ x.texts, '\r' ∉ s.toList)
    {rest : List Char} (hr : '\r' ∉ rest) : '\r' ∉ x.classicOnto rest :=
  match x with
  | .leaf s => by
    have hs : '\r' ∉ s.toList := hx s (by simp [Data.texts])
    simp [Data.classicOnto, hs, hr]
  | .list items => by
    have hitems : '\r' ∉ Data.classicItems (')' :: rest) items :=
      Data.notMem_classicItems items hx (by simp [hr])
    simp [Data.classicOnto, hitems]

theorem Data.notMem_classicItems (xs : List Data) (hx : ∀ s ∈ Data.textsOf xs, '\r' ∉ s.toList)
    {rest : List Char} (hr : '\r' ∉ rest) : '\r' ∉ Data.classicItems rest xs :=
  match xs with
  | [] => hr
  | [x] => Data.notMem_classicOnto x (fun s hs => hx s (by simp [Data.textsOf, hs])) hr
  | x :: y :: zs => by
    have hitems : '\r' ∉ Data.classicItems rest (y :: zs) :=
      Data.notMem_classicItems (y :: zs) (fun s hs => hx s (List.mem_append_right _ hs)) hr
    exact Data.notMem_classicOnto x (fun s hs => hx s (by simp [Data.textsOf, hs]))
      (by simp [hitems])

end

/-- **The classic form of a datum is read back to the datum**, up to the lists around a lone item.
An empty list is a list without items and stays one. -/
theorem read_classic_data (x : Data) (hx : ∀ s ∈ x.texts, Token.Valid s) (file : String) :
    ∃ t, read x.classic file = .ok t ∧ t.data = x.unwrap := by
  have hcr : '\r' ∉ x.classicOnto [] :=
    x.notMem_classicOnto (fun s hs => (hx s hs).unified) List.not_mem_nil
  obtain ⟨hs, ho⟩ := scan_classic x hx
  have htext : scanText x.classic = scan none (x.classicOnto []) := by
    rw [scanText, Data.classic, String.toList_ofList, Lines.unify_of_notMem hcr]
  refine ⟨(draftOf x.classic).tree.unwrap, read_eq_ok_iff.mpr ⟨?_, rfl⟩, ?_⟩
  · rw [htext, ho]
  · have hdraw : draftOf x.classic = Draft.start.draw (Data.strokesOf [x.asBlock]) := by
      rw [draftOf, htext, hs, Data.strokesOf, Data.strokesOf, List.append_nil]
    rw [Tree.data_unwrap, hdraw, Draft.data_draw, Data.unwrap_list_asBlock]

/-! ## 3. Valid leaves -/

/-- The tokens of a text are valid. -/
theorem valid_of_mem_flatTokens {cs : List Char} {tokens : List String} {s : String}
    (hr : '\r' ∉ cs) (h : flatTokens cs = some tokens) (hs : s ∈ tokens) : Token.Valid s := by
  fun_induction flatTokens cs generalizing tokens with
  | case1 =>
    cases h
    exact absurd hs List.not_mem_nil
  | case2 cs ih =>
    refine ih (fun hm => hr (List.mem_cons_of_mem _ ?_)) h hs
    exact (List.dropWhile_sublist _).subset hm
  | case3 c cs hne hc n hl _ ih =>
    obtain ⟨rest, hrest, rfl⟩ := Option.map_eq_some_iff.mp h
    rcases List.mem_cons.mp hs with rfl | hs
    · exact Token.valid_take hc hl hr
    · exact ih (fun hm => hr (List.mem_of_mem_drop hm)) hrest hs
  | case4 c cs hne hc hl => cases h
  | case5 c cs hne hc ih => exact ih (fun hm => hr (List.mem_cons_of_mem _ hm)) h hs

/-- The leaves of a draft hold its texts. -/
theorem Draft.mem_texts {d : Draft} {m p : Nat} {s : String}
    (h : d.tree.nodes[m]? = some (.leaf p s)) : s ∈ d.texts := by
  obtain ⟨hm, hx⟩ := Array.getElem?_eq_some_iff.mp h
  have h0 : 0 < d.tree.nodes.size := Nat.lt_of_le_of_lt (Nat.zero_le m) hm
  have hmem : m ∈ (d.tree.branchAt 0 h0).handles := by
    rw [d.handles_branchAt_zero h0]
    exact List.mem_range.mpr hm
  obtain ⟨⟨m', text?⟩, he, rfl⟩ := List.mem_map.mp hmem
  obtain ⟨x, hx', ht⟩ := Tree.content?_of_mem_entries h0 he
  rw [h] at hx'
  cases hx'
  rw [d.entries_branchAt_zero h0] at he
  exact List.mem_filterMap.mpr ⟨_, he, ht.symm⟩

theorem valid_of_mem_texts {text s : String} (h : s ∈ (draftOf text).texts) : Token.Valid s := by
  refine valid_of_mem_flatTokens ?_ (flatTokens_behind text) h
  intro hr
  refine Lines.not_mem_unify text.toList ?_
  rw [← text_placeOf]
  exact List.mem_append_left _ hr

/-- **A reader only makes valid leaves**, also of a text that it rejects in the end.  A leaf holds a
token of the text that was taken at a place where tokens start. -/
theorem valid_leaf {text file : String} {m p : Nat} {s : String}
    (h : (Reader.stop text file).tree.nodes[m]? = some (.leaf p s)) : Token.Valid s := by
  rw [(Reader.branchAt_stop text file).1] at h
  exact valid_of_mem_texts (Draft.mem_texts h)

theorem valid_of_mem_leaves {text file : String} {t : Tree} (h : read text file = .ok t) :
    ∀ leaf ∈ t.leaves, Token.Valid leaf.2 := by
  obtain ⟨-, rfl⟩ := read_eq_ok_iff.mp h
  intro leaf hl
  rw [Draft.leaves_unwrap] at hl
  have hs : leaf.2 ∈ (draftOf text).texts := by
    rw [← (draftOf text).leaves_branchAt_zero (draftOf text).size_pos]
    exact List.mem_map_of_mem hl
  exact valid_of_mem_texts hs

/-! ## 4. The round trip -/

/-- **Reading undoes classic printing.**  Any subtree whose leaves are valid tokens is printed to a
text that is read, and read to what the subtree says without the lists around a lone item.  A reader
makes valid leaves only, so printing what was read and reading it again changes nothing, and neither
does printing it once more. -/
theorem read_classic :
    (∀ (t : Tree) (n : Nat) (hn : n < t.nodes.size) (file : String),
      (∀ leaf ∈ t.leavesOnto n hn [], Token.Valid leaf.2) →
      ∃ t', read (t.dataAt n hn).classic file = .ok t' ∧ t'.data = (t.dataAt n hn).unwrap) ∧
    (∀ (text file : String) (m p : Nat) (s : String),
      (Reader.stop text file).tree.nodes[m]? = some (.leaf p s) → Token.Valid s) ∧
    (∀ (text file file' : String) (t : Tree), read text file = .ok t →
      ∃ t', read t.data.classic file' = .ok t' ∧ t'.data = t.data ∧
        t'.data.classic = t.data.classic) := by
  have hvalid : ∀ (t : Tree) (n : Nat) (hn : n < t.nodes.size) (file : String),
      (∀ leaf ∈ t.leavesOnto n hn [], Token.Valid leaf.2) →
      ∃ t', read (t.dataAt n hn).classic file = .ok t' ∧ t'.data = (t.dataAt n hn).unwrap := by
    intro t n hn file h
    refine read_classic_data (t.dataAt n hn) (fun s hs => ?_) file
    rw [Tree.texts_dataAt] at hs
    obtain ⟨leaf, hl, rfl⟩ := List.mem_map.mp hs
    exact h leaf hl
  refine ⟨hvalid, fun text file m p s h => valid_leaf h, fun text file file' t ht => ?_⟩
  obtain ⟨t', hread, hdata⟩ := hvalid t t.root t.root_lt file' (valid_of_mem_leaves ht)
  obtain ⟨-, ht⟩ := read_eq_ok_iff.mp ht
  have hdata : t'.data = t.data := by
    have hunwrap : t'.data = t.data.unwrap := hdata
    rw [hunwrap, ← ht, Tree.data_unwrap, Data.unwrap_unwrap]
  exact ⟨t', hread, hdata, by rw [hdata]⟩

theorem read_classic_empty_list_and_leaf :
    ∃ t', read (Data.list [.list [], .leaf "a"]).classic "" = .ok t' ∧
      t'.data = .list [.list [], .leaf "a"] := by
  let t := (Draft.start.draw (Data.strokesOf [.list [], .leaf "a"])).tree
  have ht : t.dataAt t.root t.root_lt = .list [.list [], .leaf "a"] := Draft.data_draw _
  have hleaves : ∀ leaf ∈ t.leavesOnto t.root t.root_lt [], Token.Valid leaf.2 := by
    intro leaf hl
    have hs : leaf.2 ∈ (t.dataAt t.root t.root_lt).texts := by
      rw [Tree.texts_dataAt]
      exact List.mem_map_of_mem hl
    rw [ht] at hs
    rw [List.mem_singleton.mp hs]
    exact ⟨by decide, by decide, by decide⟩
  have h := read_classic.1 t t.root t.root_lt "" hleaves
  rwa [ht] at h

end IndentLisp

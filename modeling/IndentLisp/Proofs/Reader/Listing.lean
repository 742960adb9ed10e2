/-
# Listings tell trees apart

A listing has one entry per node (section 9), but its entries are no lines: a string that runs over
several lines is written as it is, and may look like whatever else a listing holds.  **Nothing is
lost all the same.**  Each entry stands at a depth that is known from what was read before it, and
the rules of tokens say where a leaf ends; the number of its items says where a list does.  So a
listing can be read in only one way, whatever follows it (`Data.printedOnto_inj`).

The argument is a decoder in the form of an injectivity, by recursion on both data at once.  A leaf
and a list cannot have the same entry, since the only token that the entry of a list starts with is
`list`, and a leaf of that text is followed by a line feed or by nothing, where a list has a space
(`Data.leaf_ne_tally`).  Two leaves have the same entry only if they are one token, as a token ends
where its rule says (`Data.leaf_inj`).  Two lists say how many items they have in digits, which end
at a parenthesis (`Data.tally_inj`); so as many items are read from both, at one level more.

It is essential that the leaves are tokens.  For data with other texts in their leaves it would
fail.

* `Data.printedOnto`: a listing as characters, a line feed in front of each entry.
* `Tree.preorder`, `Tree.EntryOf`: the nodes under the root, and what a listing says of each of
  them.
* `Tree.Arena.forall₂_listing`: the nodes below a node have an entry each, in preorder.
* `Tree.listing_root`: a listing is there on every machine that can indent all levels of the tree.
* `read_listing`: **what is listed of a tree that was read, and that this tells it apart from any
  other.**
-/
import IndentLisp.Proofs.Reader.RoundTrip
import IndentLisp.Proofs.Reader.Unwrapping
import IndentLisp.Proofs.Text.Lines

namespace IndentLisp

namespace Data

/-! ## 1. Listings as characters -/

/-- What a listing says of a list: how many items it has. -/
def tally (k : Nat) : String :=
  "list (" ++ toString k ++ ")"

mutual

/-- The entries of a datum at a depth, each behind a line feed, followed by `rest`.  The depth may
be any whole number, as a caller may start a listing at any. -/
def printedOnto (rest : List Char) (depth : Int) : Data → List Char
  | .leaf s => '\n' :: ((pad depth).toList ++ (s.toList ++ rest))
  | .list items =>
    '\n' :: ((pad depth).toList ++
      ((tally items.length).toList ++ printedItems rest (depth + 1) items))

/-- The entries of items that all stand at a depth, each behind a line feed, followed by `rest`. -/
def printedItems (rest : List Char) (depth : Int) : List Data → List Char
  | [] => rest
  | x :: xs => x.printedOnto (printedItems rest depth xs) depth

end

mutual

theorem flatMap_listingOnto (rest : List String) (depth : Int) : (x : Data) →
    (x.listingOnto rest depth).flatMap ('\n' :: ·.toList) =
      x.printedOnto (rest.flatMap ('\n' :: ·.toList)) depth
  | .leaf s => by simp [listingOnto, printedOnto]
  | .list items => by
    rw [listingOnto, List.flatMap_cons, flatMap_listingItems rest (depth + 1) items, printedOnto]
    simp [tally]

theorem flatMap_listingItems (rest : List String) (depth : Int) : (xs : List Data) →
    (listingItems rest depth xs).flatMap ('\n' :: ·.toList) =
      printedItems (rest.flatMap ('\n' :: ·.toList)) depth xs
  | [] => by rw [listingItems, printedItems]
  | x :: xs => by
    rw [listingItems, flatMap_listingOnto _ depth x, flatMap_listingItems rest depth xs,
      printedItems]

end

/-- Every listing has an entry. -/
theorem listing_ne_nil (x : Data) (depth : Int) : x.listing depth ≠ [] := by
  cases x <;> simp [listing, listingOnto]

/-- **A listing that is joined by line feeds**, with one more in front. -/
theorem cons_toList_intercalate_listing (x : Data) (depth : Int) :
    '\n' :: ("\n".intercalate (x.listing depth)).toList = x.printedOnto [] depth := by
  have hne : (x.listing depth).map String.toList ≠ [] := by simp [x.listing_ne_nil depth]
  have hsep : "\n".toList = ['\n'] := rfl
  rw [String.toList_intercalate, hsep, Lines.cons_intercalate '\n' hne, List.flatMap_map]
  exact flatMap_listingOnto [] depth x

/-! ## 2. Reading a listing -/

/-- What can follow an entry: nothing, or the line feed in front of the next one. -/
def Stops (rest : List Char) : Prop :=
  ∀ c, rest.head? = some c → c = '\n'

theorem stops_nil : Stops [] :=
  fun _ hc => nomatch hc

theorem stops_printedOnto (x : Data) (rest : List Char) (depth : Int) :
    Stops (x.printedOnto rest depth) := by
  intro c hc
  cases x with
  | leaf s => exact (Option.some.inj hc).symm
  | list items => exact (Option.some.inj hc).symm

theorem stops_printedItems {rest : List Char} (h : Stops rest) (depth : Int) (xs : List Data) :
    Stops (printedItems rest depth xs) := by
  cases xs with
  | nil => exact h
  | cons x xs => exact x.stops_printedOnto _ depth

section Entries

variable {a b : String} {j k : Nat} {r s : List Char}

/-- A token is found in front of what follows its entry. -/
theorem length?_entry (ha : Token.Valid a) (hr : Stops r) :
    Token.length? (a.toList ++ r) = some a.toList.length := by
  refine ha.length?_append fun c hc => ?_
  rw [hr c hc]
  rfl

/-- **Where a leaf ends, the rules of tokens say.** -/
theorem leaf_inj (ha : Token.Valid a) (hb : Token.Valid b) (hr : Stops r) (hs : Stops s)
    (h : a.toList ++ r = b.toList ++ s) : a = b ∧ r = s := by
  have hla := length?_entry ha hr
  have hlb := length?_entry hb hs
  rw [h, hlb] at hla
  obtain ⟨hab, hrs⟩ := List.append_inj h (Option.some.inj hla).symm
  exact ⟨String.toList_inj.mp hab, hrs⟩

theorem toList_tally (k : Nat) :
    (tally k).toList = "list".toList ++ (" (".toList ++ (Nat.toDigits 10 k ++ [')'])) := by
  rw [tally, Nat.toString_eq_repr, String.toList_append, String.toList_append, Nat.toList_repr]
  rfl

/-- **No leaf looks like a list**: the only token that the entry of a list starts with is `list`,
and a space follows it, where a line feed or nothing follows a leaf. -/
theorem leaf_ne_tally (ha : Token.Valid a) (hr : Stops r) :
    a.toList ++ r ≠ (tally k).toList ++ s := by
  intro h
  have hla := length?_entry ha hr
  have hlist : Token.length? ((tally k).toList ++ s) = some 4 := by
    rw [toList_tally, List.append_assoc, List.append_assoc]
    rfl
  rw [h, hlist] at hla
  rw [toList_tally, List.append_assoc, List.append_assoc] at h
  obtain ⟨-, hrest⟩ := List.append_inj h (Option.some.inj hla).symm
  have hspace := hr ' ' (by rw [hrest]; rfl)
  exact absurd hspace (by decide)

/-- **How many items a list has, its entry says**: its digits end at the parenthesis.  A number is
told by its digits, so the two lists have as many items. -/
theorem tally_inj (h : (tally j).toList ++ r = (tally k).toList ++ s) : j = k ∧ r = s := by
  have hdigits : ∀ n (rest : List Char),
      (Nat.toDigits 10 n ++ ')' :: rest).takeWhile (· ≠ ')') = Nat.toDigits 10 n := by
    intro n rest
    have hdigit : ∀ c ∈ Nat.toDigits 10 n, decide (c ≠ ')') = true := by
      intro c hc
      have hd := Nat.isDigit_of_mem_toDigits (by decide) (by decide) hc
      refine decide_eq_true fun he => ?_
      rw [he] at hd
      exact absurd hd (by decide)
    rw [List.takeWhile_append_of_pos hdigit, List.takeWhile_cons_of_neg (by decide),
      List.append_nil]
  simp only [toList_tally, List.append_assoc, List.singleton_append,
    List.append_cancel_left_eq] at h
  have hjk : Nat.toDigits 10 j = Nat.toDigits 10 k := by
    rw [← hdigits j r, h, hdigits]
  have hback := congrArg (Nat.ofDigitChars 10 · 0) hjk
  simp only [Nat.ofDigitChars_ten_toDigits] at hback
  rw [hjk] at h
  exact ⟨hback, (List.cons.inj (List.append_cancel_left h)).2⟩

end Entries

mutual

/-- **A listing can be read in only one way**, whatever follows it.  The recursion is on both data;
at each point the depth is the same in both, so the blanks are, and what stands after them is
compared. -/
theorem printedOnto_inj (depth : Int) {r s : List Char} (hr : Stops r) (hs : Stops s) :
    (x y : Data) →
    (∀ a ∈ x.texts, Token.Valid a) → (∀ a ∈ y.texts, Token.Valid a) →
    x.printedOnto r depth = y.printedOnto s depth → x = y ∧ r = s
  | .leaf a, .leaf b, hx, hy, h => by
    simp only [printedOnto, List.cons.injEq, true_and, List.append_cancel_left_eq] at h
    obtain ⟨rfl, hrs⟩ := leaf_inj (hx a List.mem_cons_self) (hy b List.mem_cons_self) hr hs h
    exact ⟨rfl, hrs⟩
  | .leaf a, .list ys, hx, _, h => by
    simp only [printedOnto, List.cons.injEq, true_and, List.append_cancel_left_eq] at h
    exact absurd h (leaf_ne_tally (hx a List.mem_cons_self) hr)
  | .list xs, .leaf b, _, hy, h => by
    simp only [printedOnto, List.cons.injEq, true_and, List.append_cancel_left_eq] at h
    exact absurd h.symm (leaf_ne_tally (hy b List.mem_cons_self) hs)
  | .list xs, .list ys, hx, hy, h => by
    simp only [printedOnto, List.cons.injEq, true_and, List.append_cancel_left_eq] at h
    obtain ⟨hlength, hitems⟩ := tally_inj h
    obtain ⟨rfl, hrs⟩ := printedItems_inj (depth + 1) hr hs xs ys hx hy hlength hitems
    exact ⟨rfl, hrs⟩

theorem printedItems_inj (depth : Int) {r s : List Char} (hr : Stops r) (hs : Stops s) :
    (xs ys : List Data) → (∀ a ∈ textsOf xs, Token.Valid a) → (∀ a ∈ textsOf ys, Token.Valid a) →
    xs.length = ys.length → printedItems r depth xs = printedItems s depth ys → xs = ys ∧ r = s
  | [], [], _, _, _, h => ⟨rfl, h⟩
  | x :: xs, y :: ys, hx, hy, hlength, h => by
    rw [printedItems, printedItems] at h
    obtain ⟨rfl, hrest⟩ := printedOnto_inj depth (stops_printedItems hr depth xs)
      (stops_printedItems hs depth ys) x y (fun a ha => hx a (List.mem_append_left _ ha))
      (fun a ha => hy a (List.mem_append_left _ ha)) h
    obtain ⟨rfl, hrs⟩ := printedItems_inj depth hr hs xs ys
      (fun a ha => hx a (List.mem_append_right _ ha))
      (fun a ha => hy a (List.mem_append_right _ ha)) (Nat.succ.inj hlength) hrest
    exact ⟨rfl, hrs⟩

end

/-- **Data with the same listing are the same**, if their leaves are tokens. -/
theorem eq_of_intercalate_listing {x y : Data} (depth : Int) (hx : ∀ a ∈ x.texts, Token.Valid a)
    (hy : ∀ a ∈ y.texts, Token.Valid a)
    (h : "\n".intercalate (x.listing depth) = "\n".intercalate (y.listing depth)) : x = y := by
  have hprinted : x.printedOnto [] depth = y.printedOnto [] depth := by
    rw [← cons_toList_intercalate_listing, h, cons_toList_intercalate_listing]
  exact (printedOnto_inj depth stops_nil stops_nil x y hx hy hprinted).1

/-! ## 3. One entry per node -/

theorem listingItems_eq_flatMap (depth : Int) (xs : List Data) :
    listingItems [] depth xs = xs.flatMap (·.listing depth) := by
  induction xs with
  | nil => rfl
  | cons x xs ih => rw [listingItems, listingOnto_eq, ih, List.flatMap_cons, listing]

theorem listing_list (depth : Int) (items : List Data) :
    (list items).listing depth =
      (pad depth ++ tally items.length) :: items.flatMap (·.listing (depth + 1)) := by
  rw [listing, listingOnto, listingItems_eq_flatMap]
  simp [tally, String.append_assoc]

end Data

namespace Tree

variable {t : Tree} {n m k : Nat}

/-- The nodes under the root in preorder: a node before its children, and these from left to right,
each with all that is below it. -/
def preorder (t : Tree) : List Nat :=
  (t.branchAt t.root t.root_lt).handles

/-- What a listing says of a node: the text of a leaf, and for a list how many children it has. -/
def label (t : Tree) (n : Nat) : String :=
  match t.textAt n with
  | some s => s
  | none => Data.tally (t.childList n).length

/-- The entry of a node: two spaces for each level that it lies below the root, and what there is to
say of it.  It is told by what the tree answers for the node, and not by the listing. -/
def EntryOf (t : Tree) (n : Nat) (line : String) : Prop :=
  ∃ k, t.depth n = .ok k ∧ line = String.ofList (List.replicate (2 * k) ' ') ++ t.label n

theorem entryOf_of_down (h : t.Arena) (hd : t.Down k t.root n) :
    t.EntryOf n (Data.pad k ++ t.label n) := by
  refine ⟨k, h.depth_of_down hd, ?_⟩
  rw [Data.pad, show (2 * (k : Int)).toNat = 2 * k by omega]

/-- **The nodes below a node have an entry each, in preorder.**  The listing is made from what the
tree says; the induction is over the branch that says it. -/
theorem Arena.forall₂_listing (h : t.Arena) (hn : n < t.nodes.size) (hd : t.Down k t.root n) :
    List.Forall₂ t.EntryOf (t.branchAt n hn).handles ((t.dataAt n hn).listing k) := by
  fun_induction branchAt t n hn generalizing k with
  | case1 n hn p s hx =>
    have hlabel : t.label n = s := by
      rw [label, textAt, Array.getElem?_eq_getElem hn, hx]
      rfl
    have hentry := entryOf_of_down h hd
    rw [hlabel] at hentry
    rw [dataAt_eq, branchAt_leaf hn hx]
    exact .cons hentry .nil
  | case2 n hn p? cs hx ih =>
    have hchildren := childList_of_list hn hx
    have hlabel : t.label n = Data.tally cs.toList.length := by
      rw [label, textAt, Array.getElem?_eq_getElem hn, hx, hchildren]
      rfl
    have hentry := entryOf_of_down h hd
    obtain ⟨hcs, hbranch⟩ := branchAt_list hn hx
    have hdata : t.dataAt n hn =
        .list (cs.toList.attach.map fun c => t.dataAt c.1 (hcs c.1 c.2).2) := by
      rw [dataAt_eq, hbranch, Branch.data, Branch.dataOf_eq_map, List.map_map]
      simp only [dataAt_eq]
      rfl
    rw [hdata, Data.listing_list, List.length_map, List.length_attach, ← hlabel, List.flatMap_map,
      Branch.handles, Branch.entries, Branch.entriesOf_eq_flatMap, List.flatMap_map, List.map_cons,
      List.map_flatMap]
    refine .cons hentry (List.rel_flatMap (List.forall₂_same.mpr fun c _ => rfl) ?_)
    rintro ⟨c, hc⟩ - rfl
    have hstep : t.Down (k + 1) t.root c := hd.step (hchildren ▸ hc)
    exact ih c hc hstep

/-- A walk starts at the node that it walks from. -/
theorem head?_handles_branchAt (hn : n < t.nodes.size) :
    (t.branchAt n hn).handles.head? = some n := by
  cases hx : t.nodes[n] with
  | leaf p s =>
    rw [branchAt_leaf hn hx]
    rfl
  | list p? cs =>
    obtain ⟨_, hbranch⟩ := branchAt_list hn hx
    rw [hbranch]
    rfl

/-- Where the handles below a node are consecutive, they are below each node on a way down through
lists of one child. -/
theorem LoneDown.handles (h : t.LoneDown k m n) (hm : m < t.nodes.size) (hn : n < t.nodes.size)
    (hall : (t.branchAt m hm).handles = List.range' m (t.size - m)) :
    (t.branchAt n hn).handles = List.range' n (t.size - n) := by
  induction h with
  | refl m => exact hall
  | @step k m c n _ hc hrest ih =>
    have hlt := lt_of_mem_childList (hc ▸ List.mem_singleton_self c)
    have hcons : (t.branchAt m hm).handles = m :: (t.branchAt c hlt.2).handles := by
      rw [branchAt_of_singleton hm hc hlt.2, Branch.handles, Branch.entries, Branch.entriesOf,
        Branch.entriesOf, List.append_nil]
      rfl
    obtain ⟨j, hj⟩ : ∃ j, t.size - m = j + 1 + 1 := ⟨t.size - m - 2, by omega⟩
    rw [hcons, hj, List.range'_succ, List.cons.injEq] at hall
    have hhead := head?_handles_branchAt hlt.2
    rw [hall.2, List.range'_succ, List.head?_cons] at hhead
    obtain rfl : m + 1 = c := Option.some.inj hhead
    refine ih hlt.2 hn ?_
    rw [hall.2, show t.size - (m + 1) = j + 1 by omega]

/-- Consecutive handles under the root stay so when it moves. -/
theorem preorder_unwrap (h : t.preorder = List.range' t.root (t.size - t.root)) :
    t.unwrap.preorder = List.range' t.unwrap.root (t.unwrap.size - t.unwrap.root) := by
  have hlone := (t.lone t.root t.root_lt).2
  have hsame := t.branchAt_unwrap _ hlone
  obtain ⟨hdown, -⟩ := t.loneDown_lone t.root t.root_lt
  exact (congrArg Branch.handles hsame).trans (hdown.handles t.root_lt hlone h)

end Tree

/-! ## 4. What was read -/

/-- **The nodes of a tree that was read are numbered as a listing tells of them**, from the root
on. -/
theorem preorder_of_read {text file : String} {t : Tree} (h : read text file = .ok t) :
    t.preorder = List.range' t.root (t.size - t.root) := by
  obtain ⟨-, rfl⟩ := read_eq_ok_iff.mp h
  refine Tree.preorder_unwrap ?_
  have hzero : ∀ n (hn : n < (draftOf text).tree.nodes.size), n = 0 →
      ((draftOf text).tree.branchAt n hn).handles =
        List.range' n ((draftOf text).tree.size - n) := by
    rintro n hn rfl
    rw [(draftOf text).handles_branchAt_zero hn, List.range_eq_range']
    rfl
  exact hzero _ _ (draftOf text).sound.root_eq

/-- **What comes of listing a tree** from its root on: what the machine has against the blanks of
the first level that it cannot indent, or else the listing of what the tree says. -/
theorem Tree.listingWithin_root (limit : Repetition.Limit) (t : Tree) :
    t.listingWithin limit t.root 0 =
      match (List.range (t.data.height + 1)).findSome? fun (k : Nat) => limit 2 k with
      | some e => .error (.indentation e)
      | none => .ok (t.data.listing 0) := by
  have hlevels : ((List.range t.data.height).map Nat.succ).findSome?
        (fun (k : Nat) => limit 2 k) =
      (List.range t.data.height).findSome? fun (k : Nat) => limit 2 (0 + k + 1) := by
    rw [List.findSome?_map]
    congr 1
    funext k
    simp
  rw [listingWithin, subtree_eq t.root_lt, List.range_succ_eq_map, List.findSome?_cons, hlevels]
  cases limit 2 0 <;> rfl

/-- On a machine that can indent every level of a tree, the tree has a listing. -/
theorem Tree.listing_root {limit : Repetition.Limit} {t : Tree}
    (h : ∀ (k : Nat), k ≤ t.data.height → limit 2 k = none) :
    t.listingWithin limit t.root 0 = .ok (t.data.listing 0) := by
  have hnone : (List.range (t.data.height + 1)).findSome? (fun (k : Nat) => limit 2 k) = none :=
    List.findSome?_eq_none_iff.mpr fun k hk => h k (Nat.le_of_lt_succ (List.mem_range.mp hk))
  rw [listingWithin_root, hnone]

theorem Tree.eq_of_listing_root {limit : Repetition.Limit} {t : Tree} {lines : List String}
    (h : t.listingWithin limit t.root 0 = .ok lines) : lines = t.data.listing 0 := by
  rw [listingWithin_root] at h
  split at h
  · cases h
  · exact (Except.ok.inj h).symm

/-- **A listing tells a tree apart from any other.**  It has one entry for each node of a tree that
was read, in preorder, each behind two spaces for every level below the root; and although a leaf is
written as it is, whatever it looks like, two such trees say the same if their listings are one
text, and only then.  A listing is there on every machine that can indent all levels of the tree. -/
theorem read_listing :
    (∀ (text file : String) (t : Tree), read text file = .ok t →
      t.preorder = List.range' t.root (t.size - t.root) ∧
      ∃ lines, List.Forall₂ t.EntryOf t.preorder lines ∧
        ∀ (limit : Repetition.Limit), (∀ (k : Nat), k ≤ t.data.height → limit 2 k = none) →
          t.listingWithin limit t.root 0 = .ok lines) ∧
    (∀ (limit limit' : Repetition.Limit) (text text' file file' : String) (t t' : Tree)
        (lines lines' : List String),
      read text file = .ok t → read text' file' = .ok t' →
      t.listingWithin limit t.root 0 = .ok lines →
      t'.listingWithin limit' t'.root 0 = .ok lines' →
      ("\n".intercalate lines = "\n".intercalate lines' ↔ t.data = t'.data)) := by
  have hvalid : ∀ (text file : String) (t : Tree), read text file = .ok t →
      ∀ a ∈ t.data.texts, Token.Valid a := by
    intro text file t ht a ha
    rw [Tree.data, Tree.texts_dataAt] at ha
    obtain ⟨leaf, hl, rfl⟩ := List.mem_map.mp ha
    exact valid_of_mem_leaves ht leaf hl
  constructor
  · intro text file t ht
    have harena := (Tree.reachable_of_read ht).arena
    exact ⟨preorder_of_read ht, _, harena.forall₂_listing t.root_lt (.refl t.root),
      fun limit => Tree.listing_root⟩
  · intro limit limit' text text' file file' t t' lines lines' ht ht' hl hl'
    obtain rfl := Tree.eq_of_listing_root hl
    obtain rfl := Tree.eq_of_listing_root hl'
    constructor
    · exact Data.eq_of_intercalate_listing 0 (hvalid text file t ht) (hvalid text' file' t' ht')
    · intro heq
      rw [heq]

/-- A symbol and a string whose second line looks like the entry of a list, next to a tree that has
that list. -/
theorem read_listing_imitated_entry :
    ∃ t t', read "list \"\n  list (0)\"" "" = .ok t ∧ read "list \"\" ()" "" = .ok t' ∧
      t.preorder = List.range' t.root (t.size - t.root) ∧
      "\n".intercalate (t.data.listing 0) ≠ "\n".intercalate (t'.data.listing 0) := by
  have hread : read "list \"\n  list (0)\"" "" =
      .ok (draftOf "list \"\n  list (0)\"").tree.unwrap :=
    read_eq_ok_iff.mpr ⟨by decide +kernel, rfl⟩
  have hread' : read "list \"\" ()" "" = .ok (draftOf "list \"\" ()").tree.unwrap :=
    read_eq_ok_iff.mpr ⟨by decide +kernel, rfl⟩
  have hdata : (draftOf "list \"\n  list (0)\"").tree.unwrap.data =
      .list [.leaf "list", .leaf "\"\n  list (0)\""] := by
    have hstrokes : (scanText "list \"\n  list (0)\"").strokes =
        Data.strokesOf [.list [.leaf "list", .leaf "\"\n  list (0)\""]] := by decide +kernel
    rw [Tree.data_unwrap, draftOf, hstrokes, Draft.data_draw]
    simp [Data.unwrap]
  have hdata' : (draftOf "list \"\" ()").tree.unwrap.data =
      .list [.leaf "list", .leaf "\"\"", .list []] := by
    have hstrokes : (scanText "list \"\" ()").strokes =
        Data.strokesOf [.list [.leaf "list", .leaf "\"\"", .list []]] := by decide +kernel
    rw [Tree.data_unwrap, draftOf, hstrokes, Draft.data_draw]
    simp [Data.unwrap]
  obtain ⟨hnodes, htell⟩ := read_listing
  refine ⟨_, _, hread, hread', (hnodes _ _ _ hread).1, fun h => ?_⟩
  have hlisting : ∀ (t : Tree),
      t.listingWithin Repetition.unlimited t.root 0 = .ok (t.data.listing 0) := fun t =>
    Tree.listing_root fun _ _ => rfl
  have heq := (htell _ _ _ _ _ _ _ _ _ _ hread hread' (hlisting _) (hlisting _)).mp h
  rw [hdata, hdata'] at heq
  exact absurd heq (by decide)

end IndentLisp

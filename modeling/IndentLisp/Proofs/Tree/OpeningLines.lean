/-
# Opening a line

The depth-transition rule of the specification (section 4, `indent`): a line that is deeper than the
one before opens one list in another, and any other line opens one list beside an ancestor.  The
lists to go up are looked for first, and a list can always take a child, so **a line is opened in
full or refused before anything is added** (`Tree.openLine_exact`).

Everything is said for any handle and any change of depth, and after any run of operations.  A
reader uses little of that: it opens lines at its innermost list, where the lists to go up are
always there.  A caller of the tree can open a line anywhere, also at a leaf, at a node above the
root, or by more levels than there are.

When a line can be opened is told by the links of the tree (`Tree.CanOpen`).  For a deeper line the
node has to be a list.  For any other one there have to be as many steps up as the line goes up, and
one more, since the new list stands beside the ancestor and goes into its parent; and no step starts
at the root.  What is added is said in full, node by node (`Tree.Nests`): where the new lists are,
what each of them holds, and that nothing else is new.

* `Tree.Up`: so many steps to a parent that never start at the root; `Tree.ancestor_eq_ok_iff`:
  these are what is looked for.
* `Tree.nests_addChain`, `Tree.addBeside_of_up`: what either kind of line adds.
* `Tree.opened_of_canOpen`, `Tree.canOpen_of_openLine`: a line is opened just where it can be.
* `Tree.Opened.depth_eq`: the last list lies as much deeper than the node as the line does.
-/
import IndentLisp.Proofs.Tree.Operations

namespace IndentLisp

namespace Tree

variable {t t' : Tree} {n p k : Nat}

/-! ## 1. Steps up -/

/-- `Up k n p`: `k` steps from a node to its parent lead from `n` to `p`, and none of them starts at
the root.  A tree answers no parent for its root, although the root's node may have a link to
one. -/
inductive Up (t : Tree) : Nat → Nat → Nat → Prop
  | refl (n : Nat) : t.Up 0 n n
  | step {k n q p : Nat} : n ≠ t.root → t.parentLink n = some q → t.Up k q p → t.Up (k + 1) n p

/-- The node that lies so many steps above a node is the one to which that many steps up lead. -/
theorem ancestor_nat_eq_ok_iff {a : Int} :
    t.ancestor k n = .ok a ↔ ∃ p : Nat, a = p ∧ t.Up k n p := by
  induction k generalizing n with
  | zero =>
    constructor
    · intro h
      exact ⟨n, (Except.ok.inj h).symm, .refl n⟩
    · rintro ⟨p, rfl, hup⟩
      cases hup
      rfl
  | succ k ih =>
    rw [ancestor]
    constructor
    · intro h
      cases hq : t.parent n with
      | error e =>
        rw [hq] at h
        cases h
      | ok q =>
        rw [hq] at h
        obtain ⟨m, hm, hroot, hlink⟩ := parent_eq_ok_iff.mp hq
        obtain rfl : n = m := by omega
        obtain ⟨p, rfl, hup⟩ := ih.mp h
        exact ⟨p, rfl, .step hroot hlink hup⟩
    · rintro ⟨p, rfl, hup⟩
      cases hup with
      | @step _ _ q _ hroot hlink hup =>
        rw [parent_eq_ok_iff.mpr ⟨n, rfl, hroot, hlink⟩]
        exact ih.mpr ⟨p, rfl, hup⟩

/-- **An ancestor is found just where there are that many steps up**, whatever the handle.  It is
stated for at least one step; with none, any handle is its own ancestor, be it a node or not. -/
theorem ancestor_eq_ok_iff {z a : Int} :
    t.ancestor (k + 1) z = .ok a ↔ ∃ n p : Nat, z = n ∧ a = p ∧ t.Up (k + 1) n p := by
  constructor
  · intro h
    have hq := h
    rw [ancestor] at hq
    cases hp : t.parent z with
    | error e =>
      rw [hp] at hq
      cases hq
    | ok q =>
      obtain ⟨n, rfl, -⟩ := parent_eq_ok_iff.mp hp
      obtain ⟨p, rfl, hup⟩ := ancestor_nat_eq_ok_iff.mp h
      exact ⟨n, p, rfl, rfl, hup⟩
  · rintro ⟨n, p, rfl, rfl, hup⟩
    exact ancestor_nat_eq_ok_iff.mpr ⟨p, rfl, hup⟩

namespace Up

/-- Only a node has a parent. -/
theorem lt (h : t.Up (k + 1) n p) : n < t.size := by
  cases h with
  | step _ hlink _ =>
    refine Nat.lt_of_not_le fun hle => ?_
    rw [parentLink, Array.getElem?_eq_none hle] at hlink
    cases hlink

/-- What steps up lead to is a list: it holds the node that the last step starts at. -/
theorem exists_mem (harena : t.Arena) (h : t.Up (k + 1) n p) : ∃ c, c ∈ t.childList p := by
  generalize hj : k + 1 = j at h
  induction h generalizing k with
  | refl => cases hj
  | @step j n q p _ hlink hup ih =>
    cases hup with
    | refl => exact ⟨n, harena.mem_childList_iff.mpr hlink⟩
    | step => exact ih rfl

/-- **Steps up from a node below the root lead back on the way down to it.**  So they never lead
above the root, and their end is as much less deep. -/
theorem down (harena : t.Arena) {j : Nat} (hd : t.Down j t.root n) (h : t.Up k n p) :
    ∃ i, j = i + k ∧ t.Down i t.root p := by
  induction h generalizing j with
  | refl n => exact ⟨j, rfl, hd⟩
  | @step k n q p hroot hlink _ ih =>
    cases hd with
    | refl => exact absurd rfl hroot
    | @step j _ q' _ hd hmem =>
      obtain rfl : q' = q := Option.some.inj ((harena.mem_childList_iff.mp hmem).symm.trans hlink)
      obtain ⟨i, rfl, hi⟩ := ih hd
      exact ⟨i, Nat.add_assoc i k 1, hi⟩

end Up

/-! ## 2. New lists -/

/-- **A tree with `k` new lists**: the first is the last child of `p`, each further one is all that
the one before holds, and nothing else is new. -/
structure Nests (t : Tree) (p k : Nat) (t' : Tree) : Prop where
  root_eq : t'.root = t.root
  size_eq : t'.size = t.size + k
  text_eq : ∀ n < t.size, t'.textAt n = t.textAt n
  parent_eq : ∀ n < t.size, t'.parentLink n = t.parentLink n
  children_eq : ∀ n < t.size, t'.childList n = t.childList n ++ if n = p then [t.size] else []
  new_text : ∀ i < k, t'.textAt (t.size + i) = none
  new_parent : ∀ i < k, t'.parentLink (t.size + i) = some (if i = 0 then p else t.size + i - 1)
  new_children : ∀ i < k, t'.childList (t.size + i) = if i + 1 < k then [t.size + i + 1] else []

/-- One new list. -/
theorem nests_grow (hp : p < t.nodes.size) (hl : t.textAt p = none) :
    t.Nests p 1 (t.grow p hp none) := by
  constructor
  · rfl
  · exact t.size_grow p hp none
  · intro n hn
    rw [textAt_grow, if_neg (Nat.ne_of_lt hn)]
  · intro n hn
    rw [parentLink_grow, if_neg (Nat.ne_of_lt hn)]
  · intro n _
    exact childList_grow hl
  · intro i hi
    obtain rfl : i = 0 := by omega
    rw [textAt_grow, Nat.add_zero, if_pos rfl]
  · intro i hi
    obtain rfl : i = 0 := by omega
    rw [parentLink_grow, Nat.add_zero, if_pos rfl, if_pos rfl]
  · intro i hi
    obtain rfl : i = 0 := by omega
    have hne : t.size ≠ p := Nat.ne_of_gt hp
    rw [childList_grow hl, Nat.add_zero, childList_of_le (Nat.le_refl _), if_neg hne]
    rfl

/-- A new list, and more new lists in it. -/
theorem Nests.cons {hp : p < t.nodes.size} (hl : t.textAt p = none)
    (h : (t.grow p hp none).Nests t.size (k + 1) t') : t.Nests p (k + 2) t' := by
  have hone := nests_grow hp hl
  have hsize : (t.grow p hp none).size = t.size + 1 := t.size_grow p hp none
  have hlt : ∀ {n}, n < t.size → n < (t.grow p hp none).size := fun hn => by omega
  -- A new list other than the first is new to the tree with the first one as well.
  have hnew : ∀ i, t.size + (i + 1) = (t.grow p hp none).size + i := fun i => by omega
  constructor
  · exact h.root_eq
  · rw [h.size_eq, hsize]
    omega
  · intro n hn
    rw [h.text_eq n (hlt hn), hone.text_eq n hn]
  · intro n hn
    rw [h.parent_eq n (hlt hn), hone.parent_eq n hn]
  · intro n hn
    rw [h.children_eq n (hlt hn), if_neg (Nat.ne_of_lt hn), List.append_nil, hone.children_eq n hn]
  · intro i hi
    cases i with
    | zero => rw [h.text_eq _ (by omega), hone.new_text 0 Nat.one_pos]
    | succ i => rw [hnew, h.new_text i (by omega)]
  · intro i hi
    cases i with
    | zero => rw [h.parent_eq _ (by omega), hone.new_parent 0 Nat.one_pos]
    | succ i =>
      rw [hnew, h.new_parent i (by omega), if_neg (Nat.succ_ne_zero i), hsize]
      by_cases h0 : i = 0
      · simp [h0]
      · rw [if_neg h0]
  · intro i hi
    cases i with
    | zero =>
      have hempty := (hone.new_children 0 Nat.one_pos).trans (if_neg (by decide))
      rw [h.children_eq _ (by omega), hempty, Nat.add_zero, if_pos rfl, if_pos (by omega), hsize]
      rfl
    | succ i =>
      rw [hnew, h.new_children i (by omega), hsize]
      by_cases hlast : i + 1 < k + 1
      · rw [if_pos hlast, if_pos (by omega), Nat.add_right_comm t.size 1 i,
          Nat.add_assoc t.size i 1]
      · rw [if_neg hlast, if_neg (by omega)]

/-- Each new list lies one step below the one before, and the first below `p`. -/
theorem Nests.down (hp : p < t.size) (h : t.Nests p k t') {i : Nat} (hi : i < k) :
    t'.Down (i + 1) p (t.size + i) := by
  induction i with
  | zero =>
    refine (Down.refl p).step ?_
    rw [h.children_eq p hp, if_pos rfl]
    simp
  | succ i ih =>
    refine (ih (by omega)).step ?_
    rw [h.new_children i (by omega), if_pos hi]
    exact List.mem_singleton_self _

/-- The ways down in a tree stay with new lists. -/
theorem Nests.down_of_down (h : t.Nests p k t') {j m : Nat} (hd : t.Down j m n) :
    t'.Down j m n := by
  refine hd.mono fun q c hc => ?_
  have hq : q < t.size := Nat.lt_trans (lt_of_mem_childList hc).1 (lt_of_mem_childList hc).2
  rw [h.children_eq q hq]
  exact List.mem_append_left _ hc

/-! ## 3. What a line adds -/

/-- A chain of new lists is added wherever a list can take a child, and is refused anywhere else. -/
theorem addChain_eq_ok_iff {z : Int} :
    (∃ m t', addChain k z t = .ok m t') ↔ ∃ n : Nat, z = n ∧ n < t.size ∧ t.textAt n = none := by
  constructor
  · rintro ⟨m, t', h⟩
    cases hi : t.listIndex z .listInLeaf with
    | ok i => exact ⟨i.1, eq_of_listIndex hi, i.2, textAt_of_listIndex hi⟩
    | error e =>
      have hadd : addList z t = .error e t := by
        simp only [addList, hi]
      cases k with
      | zero =>
        rw [addChain, hadd] at h
        cases h
      | succ k =>
        simp only [addChain, bind, EStateM.bind, hadd] at h
        cases h
  · rintro ⟨n, rfl, hn, hl⟩
    obtain ⟨m, t', h, -⟩ := addChain_of_list k hn hl
    exact ⟨m, t', h⟩

/-- **A chain of new lists**, and nothing else; the last one is answered.  The induction is on their
number, with the first of them as the node to go on from. -/
theorem nests_addChain {m : Nat} (hn : n < t.nodes.size) (hl : t.textAt n = none)
    (h : addChain k n t = .ok m t') : t.Nests n (k + 1) t' ∧ m = t.size + k := by
  induction k generalizing t n with
  | zero =>
    rw [addChain, addList_of_list hn hl] at h
    cases h
    exact ⟨nests_grow hn hl, rfl⟩
  | succ k ih =>
    simp only [addChain, bind, EStateM.bind, addList_of_list hn hl] at h
    have hsize : (t.grow n hn none).size = t.size + 1 := t.size_grow n hn none
    have hfresh : (t.grow n hn none).textAt t.size = none := by
      rw [textAt_grow, if_pos rfl]
    have hlt : t.size < (t.grow n hn none).nodes.size :=
      Nat.lt_of_lt_of_eq (Nat.lt_succ_self _) hsize.symm
    obtain ⟨hnests, hm⟩ := ih hlt hfresh h
    refine ⟨hnests.cons hl, ?_⟩
    rw [hm, hsize]
    omega

/-- **A new list beside an ancestor**, where there are that many steps up and one more.  The last
step leads to the list that the new one goes into. -/
theorem addBeside_of_up (harena : t.Arena) (h : t.Up (k + 1) n p) :
    ∃ t', addBeside k n t = .ok t.size t' ∧ t.Nests p 1 t' := by
  obtain ⟨c, hc⟩ := h.exists_mem harena
  have hp : p < t.nodes.size := Nat.lt_trans (lt_of_mem_childList hc).1 (lt_of_mem_childList hc).2
  have hl : t.textAt p = none := by
    cases hs : t.textAt p with
    | none => rfl
    | some s =>
      rw [childList_of_textAt hs] at hc
      cases hc
  refine ⟨t.grow p hp none, ?_, nests_grow hp hl⟩
  unfold addBeside
  rw [ancestor_eq_ok_iff.mpr ⟨n, p, rfl, rfl, h⟩]
  exact addList_of_list hp hl

/-- It is refused anywhere else. -/
theorem exists_up_of_addBeside {z : Int} {m : Nat} (h : addBeside k z t = .ok m t') :
    ∃ n p : Nat, z = n ∧ t.Up (k + 1) n p := by
  unfold addBeside at h
  cases ha : t.ancestor (k + 1) z with
  | error e =>
    rw [ha] at h
    cases h
  | ok a =>
    obtain ⟨n, p, rfl, rfl, hup⟩ := ancestor_eq_ok_iff.mp ha
    exact ⟨n, p, rfl, hup⟩

/-- Where a line of a given change of depth can be opened from a node: a list can be nested in the
node, or there are so many steps up and one more.  Both are questions about the links and the
root. -/
def CanOpen (t : Tree) (n : Nat) (d : Int) : Prop :=
  n < t.size ∧ (0 < d → t.textAt n = none) ∧ (d ≤ 0 → ∃ p, t.Up (d.natAbs + 1) n p)

/-- What opening a line comes to: lists in the node, one in another, or one list beside an ancestor;
and the last of them, which is answered, is the newest node. -/
structure Opened (t : Tree) (n : Nat) (d : Int) (m : Nat) (t' : Tree) : Prop where
  deeper : 0 < d → t.Nests n d.toNat t'
  beside : d ≤ 0 → ∃ p, t.Up (d.natAbs + 1) n p ∧ t.Nests p 1 t'
  last : m + 1 = t'.size

/-- **A line is opened just where it can be**, and nothing is added but its lists. -/
theorem opened_of_canOpen (harena : t.Arena) {d : Int} (h : t.CanOpen n d) :
    ∃ m t', openLine n (.levels d) t = .ok m t' ∧ t.Opened n d m t' := by
  obtain ⟨hn, hl, hup⟩ := h
  by_cases hd : 0 < d
  · obtain ⟨m, t', hrun⟩ := addChain_eq_ok_iff.mpr ⟨n, rfl, hn, hl hd⟩
    obtain ⟨hnests, rfl⟩ := nests_addChain (k := d.toNat - 1) hn (hl hd) hrun
    rw [show d.toNat - 1 + 1 = d.toNat by omega] at hnests
    have hdeeper : ¬ d ≤ 0 := by omega
    refine ⟨t.size + (d.toNat - 1), t', ?_, fun _ => hnests, fun h0 => absurd h0 hdeeper, ?_⟩
    · rw [openLine, if_pos hd, hrun]
    · rw [hnests.size_eq]
      omega
  · obtain ⟨p, hup⟩ := hup (by omega)
    obtain ⟨t', hrun, hnests⟩ := addBeside_of_up harena hup
    refine ⟨t.size, t', ?_, fun h0 => absurd h0 hd, fun _ => ⟨p, hup, hnests⟩, hnests.size_eq.symm⟩
    rw [openLine, if_neg hd, show (-d).toNat = d.natAbs by omega, hrun]

theorem canOpen_of_openLine {z d : Int} {m : Nat} (h : openLine z (.levels d) t = .ok m t') :
    ∃ n : Nat, z = n ∧ t.CanOpen n d := by
  by_cases hd : 0 < d
  · rw [openLine, if_pos hd] at h
    obtain ⟨n, rfl, hn, hl⟩ := addChain_eq_ok_iff.mp ⟨m, t', h⟩
    have hdeeper : ¬ d ≤ 0 := by omega
    exact ⟨n, rfl, hn, fun _ => hl, fun h0 => absurd h0 hdeeper⟩
  · rw [openLine, if_neg hd] at h
    obtain ⟨n, p, rfl, hup⟩ := exists_up_of_addBeside h
    rw [show (-d).toNat = d.natAbs by omega] at hup
    exact ⟨n, rfl, hup.lt, fun h0 => absurd h0 hd, fun _ => ⟨p, hup⟩⟩

/-- **The last list that is added lies as much deeper than the node as the line does.** -/
theorem Opened.depth_eq (harena : t.Arena) (harena' : t'.Arena) {d : Int} {m j : Nat}
    (h : t.Opened n d m t') (hn : n < t.size) (hd : t.depth n = .ok j) :
    ∃ i : Nat, (i : Int) = j + d ∧ t'.depth m = .ok i := by
  obtain ⟨n', hn', hdown⟩ := harena.down_of_depth hd
  obtain rfl : n = n' := by omega
  have hm := h.last
  by_cases h0 : 0 < d
  · have hnests := h.deeper h0
    have hlast := hnests.down hn (i := d.toNat - 1) (by omega)
    rw [hnests.size_eq] at hm
    rw [show t.size + (d.toNat - 1) = m by omega, show d.toNat - 1 + 1 = d.toNat by omega] at hlast
    have hway := (hnests.down_of_down hdown).trans hlast
    rw [← hnests.root_eq] at hway
    exact ⟨j + d.toNat, by omega, harena'.depth_of_down hway⟩
  · obtain ⟨p, hup, hnests⟩ := h.beside (by omega)
    obtain ⟨i, rfl, hi⟩ := hup.down harena hdown
    obtain ⟨c, hc⟩ := hup.exists_mem harena
    have hp : p < t.size := Nat.lt_trans (lt_of_mem_childList hc).1 (lt_of_mem_childList hc).2
    have hlast := hnests.down hp (i := 0) Nat.one_pos
    rw [hnests.size_eq] at hm
    rw [show t.size + 0 = m by omega] at hlast
    have hway := (hnests.down_of_down hi).trans hlast
    rw [← hnests.root_eq] at hway
    exact ⟨i + 1, by omega, harena'.depth_of_down hway⟩

/-! ## 4. Whole runs -/

/-- **Opening a line is exact, and all or nothing**, after any run of operations, wherever the root
is, and from any handle.  It succeeds just where the line can be opened; then it adds the lists of
the line and nothing else, answers the last one, and that lies deeper than the node by the change of
depth, if the node lies below the root.  Whatever is refused changes nothing, and a change that
compares with nothing is refused. -/
theorem openLine_exact (ops : List Operation) (z : Int) :
    let t := empty.run ops
    (∀ d : Int, (∃ m t', openLine z (.levels d) t = .ok m t') ↔ ∃ n : Nat, z = n ∧ t.CanOpen n d) ∧
    (∀ (n : Nat) (d : Int) (m : Nat) (t' : Tree), z = n → openLine z (.levels d) t = .ok m t' →
      t.Opened n d m t' ∧
        ∀ j, t.depth n = .ok j → ∃ i : Nat, (i : Int) = j + d ∧ t'.depth m = .ok i) ∧
    (∀ (change : DepthChange) (e : Refusal) (t' : Tree),
      openLine z change t = .error e t' → t' = t) ∧
    openLine z .unordered t = .error .unorderedChange t := by
  intro t
  have harena : t.Arena := arena_empty.of_steps (steps_run empty ops)
  refine ⟨fun d => ⟨?_, ?_⟩, ?_, ?_, rfl⟩
  · rintro ⟨m, t', h⟩
    exact canOpen_of_openLine h
  · rintro ⟨n, rfl, hcan⟩
    obtain ⟨m, t', hrun, -⟩ := opened_of_canOpen harena hcan
    exact ⟨m, t', hrun⟩
  · rintro n d m t' rfl h
    obtain ⟨n', hn', hcan⟩ := canOpen_of_openLine h
    obtain rfl : n = n' := by omega
    obtain ⟨m', t'', hrun, hopened⟩ := opened_of_canOpen harena hcan
    rw [h] at hrun
    cases hrun
    have hsafe := safe_openLine n (.levels d) t
    unfold Safe at hsafe
    rw [h] at hsafe
    exact ⟨hopened, fun j hj => hopened.depth_eq harena (harena.of_steps hsafe) hcan.1 hj⟩
  · intro change e t' h
    have hsafe := safe_openLine z change t
    unfold Safe at hsafe
    rw [h] at hsafe
    exact hsafe

end Tree

end IndentLisp

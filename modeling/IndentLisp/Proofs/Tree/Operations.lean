/-
# Whole runs of operations

A caller may ask anything of a tree, and change it at any handle, in any order, also after an
operation was refused and after the root has moved.  **Whatever the operations are, each is carried
out in full or changes nothing** (`Tree.safe_act`), and what it does comes down to steps of two
kinds (`Tree.Step`).

This is the tree of the specification's section 3 seen from outside, with every public operation of
it as a constructor: the questions (`Tree.Question`), which change nothing by their type, and the
changes.  A handle is any whole number, since a caller can pass one that the tree never gave out.

The argument is in three parts.  A run of operations is a run of steps (`steps_run`).  A step keeps
the links in agreement and only lets the tree grow, so a run of steps does, by induction.  And from
the agreement of the links everything is read off that the tree answers: which handles have a depth,
what a walk down says, which node is whose parent.

What takes an argument of its own is that a change is not left half done.  To open a line means to
add several lists, and to look up several parents first; a refusal between two additions would leave
some of the lists behind.  None comes: the look upward comes before the first addition, and a list
that was just added can always take a child (`addChain_of_list`).

* `Tree.Operation`, `Tree.run`: what a caller can do, and the tree after it.
* `Tree.says_dataAt`: a walk down through a tree comes to an end.
* `Tree.run_keeps_arena`: **what every run keeps.**
-/
import IndentLisp.Proofs.Tree.Links
import Mathlib.Data.List.Forall2
import Mathlib.Logic.Relation

namespace IndentLisp

namespace Tree

variable {t t' : Tree} {n p c : Nat}

/-! ## 1. Operations -/

/-- A change of a tree: a list gets one more child, or the root moves.  Everything that a caller can
do to a tree is made of these two. -/
inductive Step (t : Tree) : Tree → Prop
  | grow {p : Nat} (hp : p < t.nodes.size) (text? : Option String) :
      t.textAt p = none → Step t (t.grow p hp text?)
  | unwrap : Step t t.unwrap

/-- A change of a tree keeps the links in agreement. -/
theorem Step.arena (h : t.Arena) (hs : Step t t') : t'.Arena := by
  cases hs with
  | grow hp text? hl => exact h.grow hl text?
  | unwrap => exact h.unwrap

theorem Step.grows (hs : Step t t') : t.Grows t' := by
  cases hs with
  | grow hp text? hl => exact grows_grow hl text?
  | unwrap => exact grows_unwrap t

/-- What a caller can ask of a tree.  A handle is any whole number, and a question about one that
the tree does not have is refused. -/
inductive Question where
  | size
  | isRoot (n : Int)
  | content (n : Int)
  | isLeaf (n : Int)
  | parent (n : Int)
  | children (n : Int)
  | firstChild (n : Int)
  | lastChild (n : Int)
  | forms
  | depth (n : Int)
  | subtree (n : Int)
  | data
  | equals (other : Tree)

/-- The refusal that a question meets, if it meets one. -/
def Question.ask (t : Tree) : Question → Except Refusal Unit
  | .size | .isRoot _ | .forms | .data | .equals _ => .ok ()
  | .content n => discard (t.content n)
  | .isLeaf n => discard (t.isLeaf n)
  | .parent n => discard (t.parent n)
  | .children n => discard (t.children n)
  | .firstChild n => discard (t.firstChild n)
  | .lastChild n => discard (t.lastChild n)
  | .depth n => discard (t.depth n)
  | .subtree n => discard (t.subtree n)

/-- What a caller can do with a tree: change it in one of four ways, or ask it something.  The
change of depth that a line opens by may be no number. -/
inductive Operation where
  | addList (n : Int)
  | addLeaf (n : Int) (text : String)
  | unwrap
  | openLine (n : Int) (change : DepthChange)
  | ask (q : Question)

/-- An operation, without its answer. -/
def Operation.act : Operation → EStateM Refusal Tree Unit
  | .addList n => discard (Tree.addList n)
  | .addLeaf n text => Tree.addLeaf n text
  | .unwrap => modify Tree.unwrap
  | .openLine n change => discard (Tree.openLine n change)
  | .ask q => fun t =>
    match q.ask t with
    | .ok _ => .ok () t
    | .error e => .error e t

/-- The tree after an operation, whether it was carried out or refused. -/
def perform (t : Tree) (op : Operation) : Tree :=
  match op.act t with
  | .ok _ t' => t'
  | .error _ t' => t'

/-- The tree after a run of operations. -/
def run (t : Tree) (ops : List Operation) : Tree :=
  ops.foldl perform t

/-- **A change is carried out in full or refused**, and a refused one leaves the tree as it was.  A
change may be several steps; a refusal after some of them is what this excludes. -/
def Safe {α : Type} (act : EStateM Refusal Tree α) (t : Tree) : Prop :=
  match act t with
  | .ok _ t' => Relation.ReflTransGen Step t t'
  | .error _ t' => t' = t

theorem safe_discard {α : Type} {act : EStateM Refusal Tree α} (h : Safe act t) :
    Safe (discard act) t := by
  unfold Safe at h ⊢
  simp only [discard, Functor.discard, Functor.mapConst, EStateM.map, Function.comp]
  cases hx : act t with
  | ok a t' =>
    rw [hx] at h
    exact h
  | error e t' =>
    rw [hx] at h
    exact h

/-- A list that can take a child is a node that holds no text. -/
theorem textAt_of_listIndex {z : Int} {refusal : String → Refusal}
    {i : { i : Nat // i < t.nodes.size }}
    (h : t.listIndex z refusal = .ok i) : t.textAt i.1 = none := by
  unfold listIndex at h
  split at h
  · cases h
  · rename_i j hj hindex
    split at h
    · cases h
    · rename_i hc
      cases h
      rw [textAt, Array.getElem?_eq_getElem hj]
      exact hc

theorem safe_addLeaf (z : Int) (s : String) (t : Tree) : Safe (addLeaf z s) t := by
  unfold Safe addLeaf
  cases hi : t.listIndex z .leafInLeaf with
  | error e => rfl
  | ok i => exact .single (.grow i.2 (some s) (textAt_of_listIndex hi))

theorem safe_addList (z : Int) (t : Tree) : Safe (addList z) t := by
  unfold Safe addList
  cases hi : t.listIndex z .listInLeaf with
  | error e => rfl
  | ok i => exact .single (.grow i.2 none (textAt_of_listIndex hi))

theorem addList_of_list {n : Nat} (hn : n < t.nodes.size) (hl : t.textAt n = none) :
    addList n t = .ok t.nodes.size (t.grow n hn none) := by
  rw [textAt, Array.getElem?_eq_getElem hn] at hl
  have hl : t.nodes[n].content? = none := hl
  simp [addList, listIndex, index, hn, hl]

/-- **Lists can be nested in a list to any depth**, as a new list can always take a child.  So once
the first of them can be added, none of the others is refused. -/
theorem addChain_of_list (k : Nat) {t : Tree} {n : Nat} (hn : n < t.nodes.size)
    (hl : t.textAt n = none) :
    ∃ m t', addChain k n t = .ok m t' ∧ Relation.ReflTransGen Step t t' := by
  induction k generalizing t n with
  | zero => exact ⟨_, _, addList_of_list hn hl, .single (.grow hn none hl)⟩
  | succ k ih =>
    have hnew : t.nodes.size < (t.grow n hn none).nodes.size := by
      have hs : (t.grow n hn none).nodes.size = t.nodes.size + 1 := t.size_grow n hn none
      omega
    have hfresh : (t.grow n hn none).textAt t.nodes.size = none := by
      rw [textAt_grow]
      exact if_pos rfl
    obtain ⟨m, t', hrun, hsteps⟩ := ih hnew hfresh
    refine ⟨m, t', ?_, .head (.grow hn none hl) hsteps⟩
    simp only [addChain, bind, EStateM.bind, addList_of_list hn hl]
    exact hrun

theorem eq_of_listIndex {z : Int} {refusal : String → Refusal} {i : { i : Nat // i < t.nodes.size }}
    (h : t.listIndex z refusal = .ok i) : z = i.1 := by
  unfold listIndex at h
  split at h
  · cases h
  · rename_i j hj hindex
    split at h
    · cases h
    · cases h
      exact eq_of_index hindex

theorem safe_addChain (k : Nat) (z : Int) (t : Tree) : Safe (addChain k z) t := by
  cases hi : t.listIndex z .listInLeaf with
  | error e =>
    have hadd : addList z t = .error e t := by
      simp only [addList, hi]
    have hrun : addChain k z t = .error e t := by
      cases k with
      | zero => exact hadd
      | succ k => simp only [addChain, bind, EStateM.bind, hadd]
    unfold Safe
    rw [hrun]
  | ok i =>
    obtain rfl := eq_of_listIndex hi
    obtain ⟨m, t', hrun, hsteps⟩ := addChain_of_list k i.2 (textAt_of_listIndex hi)
    unfold Safe
    rw [hrun]
    exact hsteps

theorem safe_addBeside (k : Nat) (z : Int) (t : Tree) : Safe (addBeside k z) t := by
  unfold Safe addBeside
  cases t.ancestor (k + 1) z with
  | error e => rfl
  | ok p => exact safe_addList p t

theorem safe_openLine (z : Int) (change : DepthChange) (t : Tree) : Safe (openLine z change) t := by
  cases change with
  | unordered => rfl
  | levels d =>
    by_cases hd : 0 < d
    · rw [openLine, if_pos hd]
      exact safe_addChain _ z t
    · rw [openLine, if_neg hd]
      exact safe_addBeside _ z t

/-- **Every operation is carried out in full or refused.**  One that only asks changes nothing in
either case. -/
theorem safe_act (op : Operation) (t : Tree) : Safe op.act t := by
  cases op with
  | addList z => exact safe_discard (safe_addList z t)
  | addLeaf z s => exact safe_addLeaf z s t
  | unwrap => exact .single .unwrap
  | openLine z change => exact safe_discard (safe_openLine z change t)
  | ask q =>
    simp only [Safe, Operation.act]
    cases q.ask t with
    | ok u => exact .refl
    | error e => rfl

/-- An operation is a number of changes, if any. -/
theorem steps_perform (t : Tree) (op : Operation) :
    Relation.ReflTransGen Step t (t.perform op) := by
  have h := safe_act op t
  unfold Safe at h
  unfold perform
  cases hx : op.act t with
  | ok u t' =>
    rw [hx] at h
    exact h
  | error e t' =>
    rw [hx] at h
    rw [h]

theorem steps_run (t : Tree) (ops : List Operation) : Relation.ReflTransGen Step t (t.run ops) := by
  induction ops generalizing t with
  | nil => exact .refl
  | cons op ops ih => exact (steps_perform t op).trans (ih (t.perform op))

/-- **Changes keep the links in agreement**, however many there are. -/
theorem Arena.of_steps (h : t.Arena) (hs : Relation.ReflTransGen Step t t') : t'.Arena := by
  induction hs with
  | refl => exact h
  | tail _ hstep ih => exact hstep.arena ih

/-- **Changes keep what is there**, however many there are. -/
theorem grows_of_steps (hs : Relation.ReflTransGen Step t t') : t.Grows t' := by
  induction hs with
  | refl => exact .refl t
  | tail _ hstep ih => exact ih.trans hstep.grows

/-! ## 2. What a subtree says -/

/-- What a walk down from a node says: the text of a leaf, and for a list what it says of each
child.  It is a relation, and that there is always something to be said is a theorem. -/
inductive Says (t : Tree) : Nat → Data → Prop
  | leaf {n : Nat} {s : String} : t.textAt n = some s → t.Says n (.leaf s)
  | list {n : Nat} {ds : List Data} :
      n < t.size → t.textAt n = none → List.Forall₂ t.Says (t.childList n) ds → t.Says n (.list ds)

/-- **A walk down from any node comes to an end**, and says what the tree answers for it.  Children
are newer than their parent, so the walk cannot go on forever. -/
theorem says_dataAt (t : Tree) (n : Nat) (hn : n < t.nodes.size) : t.Says n (t.dataAt n hn) := by
  fun_induction dataAt t n hn with
  | case1 n hn p s h =>
    refine .leaf ?_
    rw [textAt, Array.getElem?_eq_getElem hn, h]
    rfl
  | case2 n hn p? cs h ih =>
    have hchildren := childList_of_list hn h
    refine .list hn ?_ ?_
    · rw [textAt, Array.getElem?_eq_getElem hn, h]
      rfl
    · have hlt : ∀ c ∈ cs.toList, c < t.nodes.size := by
        intro c hc
        rw [← hchildren] at hc
        exact (lt_of_mem_childList hc).2
      have hall : List.Forall₂ t.Says (cs.toList.attach.map Subtype.val)
          (cs.toList.attach.map fun c => t.dataAt c.1 (hlt c.1 c.2)) := by
        rw [List.forall₂_map_left_iff, List.forall₂_map_right_iff, List.forall₂_same]
        rintro ⟨c, hc⟩ -
        exact ih c hc
      rw [hchildren]
      rwa [List.attach_map_subtype_val] at hall

/-- What a tree answers for the data under a handle. -/
theorem says_subtree (t : Tree) (z : Int) :
    (∃ (n : Nat) (d : Data), z = n ∧ t.subtree z = .ok d ∧ t.Says n d) ∨
      (∀ n : Nat, z = n → t.size ≤ n) ∧ t.subtree z = .error (.noSuchNode z) := by
  unfold subtree
  cases hi : t.index z with
  | ok i =>
    obtain ⟨n, hn⟩ := i
    exact Or.inl ⟨n, t.dataAt n hn, eq_of_index hi, rfl, t.says_dataAt n hn⟩
  | error e =>
    refine Or.inr ⟨?_, ?_⟩
    · rintro n rfl
      refine Nat.le_of_not_lt fun hn => ?_
      have hok : t.index n = .ok ⟨n, hn⟩ := by
        have hn : n < t.nodes.size := hn
        simp [index, hn]
      rw [hok] at hi
      cases hi
    · unfold index at hi
      split at hi
      · cases hi
      · cases hi
        rfl

/-! ## 3. Whole runs -/

/-- **What every run of operations keeps**, from a lone root on, whatever handles they are given and
however many of them are refused.  The links agree with each other; whatever comes next, nodes stay
with their texts and parents, and lists only get more children at their end; what is refused changes
nothing.  So the walk up from any handle comes to an end, at the root after as many steps as lead
down from there, and is refused otherwise, and so does the walk down that says what a subtree
holds. -/
theorem run_keeps_arena (ops : List Operation) :
    let t := empty.run ops
    t.Arena ∧
    (∀ more, t.Grows (t.run more)) ∧
    (∀ (op : Operation) (e : Refusal) (t' : Tree), op.act t = .error e t' → t' = t) ∧
    (∀ (z : Int) (k : Nat), t.depth z = .ok k ↔ ∃ n : Nat, z = n ∧ t.Down k t.root n) ∧
    (∀ z : Int, (∃ e, t.depth z = .error e) ↔ ¬ ∃ (k n : Nat), z = n ∧ t.Down k t.root n) ∧
    (∀ z : Int, (∃ (n : Nat) (d : Data), z = n ∧ t.subtree z = .ok d ∧ t.Says n d) ∨
      (∀ n : Nat, z = n → t.size ≤ n) ∧ t.subtree z = .error (.noSuchNode z)) := by
  intro t
  have harena : t.Arena := arena_empty.of_steps (steps_run empty ops)
  refine ⟨harena, ?_, ?_, ?_, ?_, t.says_subtree⟩
  · intro more
    exact grows_of_steps (steps_run t more)
  · intro op e t' herr
    have hsafe := safe_act op t
    unfold Safe at hsafe
    rw [herr] at hsafe
    exact hsafe
  · intro z k
    exact harena.depth_eq_ok_iff
  · intro z
    constructor
    · rintro ⟨e, he⟩ ⟨k, hk⟩
      rw [harena.depth_eq_ok_iff.mpr hk] at he
      cases he
    · intro hno
      cases hd : t.depth z with
      | error e => exact ⟨e, rfl⟩
      | ok k => exact absurd ⟨k, harena.depth_eq_ok_iff.mp hd⟩ hno

end Tree

end IndentLisp

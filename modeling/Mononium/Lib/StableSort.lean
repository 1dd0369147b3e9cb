import Mathlib.Data.List.Sort
import Mathlib.Data.List.Perm.Basic

/-! Stable sorting by a total preorder. Elements that the preorder does not separate
keep the order of the input, so the first `k` of the sorted list depend on the
enumeration exactly when such a tie reaches into them. -/
namespace StableSort

variable {α : Type} (r : α → α → Prop) [DecidableRel r]

def Tied (a b : α) : Prop := r a b ∧ r b a

instance (a b : α) : Decidable (Tied r a b) := inferInstanceAs (Decidable (_ ∧ _))

def Above (a b : α) : Prop := r b a ∧ ¬r a b

instance (a b : α) : Decidable (Above r a b) := inferInstanceAs (Decidable (_ ∧ _))

/-- How many elements come strictly before `a`. -/
def rank (l : List α) (a : α) : Nat := l.countP fun b => Above r a b

/-- No tie reaches into the first `k`. -/
def Decided (l : List α) (k : Nat) : Prop :=
  ∀ a ∈ l, ∀ b ∈ l, a ≠ b → Tied r a b → k ≤ rank r l a

instance [DecidableEq α] (l : List α) (k : Nat) : Decidable (Decided r l k) :=
  inferInstanceAs (Decidable (∀ _ ∈ _, _))

variable {r}

theorem rank_perm {l m : List α} (perm : l.Perm m) (a : α) : rank r l a = rank r m a :=
  perm.countP_eq _

theorem decided_perm {l m : List α} {k : Nat} (perm : l.Perm m) : Decided r l k ↔ Decided r m k := by
  simp only [Decided, perm.mem_iff, rank_perm perm]

theorem rank_eq_zero_of_first {a : α} {l : List α} (first : ∀ b ∈ l, r a b) : rank r l a = 0 := by
  rw [rank, List.countP_eq_zero]
  intro b member
  simp [Above, first b member]

theorem rank_eq_of_tied [IsTrans α r] {a b : α} (tied : Tied r a b) (l : List α) :
    rank r l a = rank r l b := by
  apply List.countP_congr
  intro c _
  rw [decide_eq_true_iff, decide_eq_true_iff]
  constructor
  · rintro ⟨before, apart⟩
    exact ⟨IsTrans.trans c a b before tied.1, fun after => apart (IsTrans.trans a b c tied.1 after)⟩
  · rintro ⟨before, apart⟩
    exact ⟨IsTrans.trans c b a before tied.2, fun after => apart (IsTrans.trans b a c tied.2 after)⟩

section

variable [Std.Total r]

/-- Two sorted enumerations agree on the first `k` if no tie reaches into them. -/
theorem take_eq_of_sorted {l m : List α} {k : Nat} (sortedL : l.Pairwise r) (sortedM : m.Pairwise r)
    (perm : l.Perm m) (decided : Decided r l k) : l.take k = m.take k := by
  induction k generalizing l m with
  | zero => rfl
  | succ k ih =>
    cases l with
    | nil => rw [List.nil_perm.mp perm]
    | cons a l =>
      cases m with
      | nil => exact absurd perm.symm (by simp)
      | cons b m =>
        have reflexive (c : α) : r c c := (Std.Total.total c c).elim id id
        have leastA : ∀ c ∈ a :: l, r a c := by
          rintro c (_ | ⟨_, member⟩)
          · exact reflexive a
          · exact List.rel_of_pairwise_cons sortedL member
        have leastB : ∀ c ∈ b :: m, r b c := by
          rintro c (_ | ⟨_, member⟩)
          · exact reflexive b
          · exact List.rel_of_pairwise_cons sortedM member
        have tied : Tied r a b :=
          ⟨leastA b (perm.mem_iff.mpr List.mem_cons_self), leastB a (perm.mem_iff.mp List.mem_cons_self)⟩
        have same : a = b := by
          by_contra different
          have early := decided a List.mem_cons_self b (perm.mem_iff.mpr List.mem_cons_self) different tied
          rw [rank_eq_zero_of_first leastA] at early
          omega
        subst same
        have rest : Decided r l k := by
          intro c hc d hd different tie
          have bound := decided c (List.mem_cons_of_mem _ hc) d (List.mem_cons_of_mem _ hd) different tie
          rw [rank, List.countP_cons] at bound
          rw [rank]
          split at bound <;> omega
        rw [List.take_succ_cons, List.take_succ_cons,
          ih sortedL.of_cons sortedM.of_cons perm.cons_inv rest]

end

/-- In a sorted list the first of the elements tied with `a` stands at the rank of `a`. -/
theorem getElem?_rank [Std.Total r] [IsTrans α r] {l : List α} (sorted : l.Pairwise r) {a : α} (member : a ∈ l) :
    l[rank r l a]? = (l.filter fun b => Tied r a b).head? := by
  induction l with
  | nil => cases member
  | cons c l ih =>
    by_cases above : Above r a c
    · have inside : a ∈ l := by
        rcases List.mem_cons.mp member with rfl | inside
        · exact absurd above.1 above.2
        · exact inside
      have untied : ¬Tied r a c := fun tied => above.2 tied.1
      have rest := ih sorted.of_cons inside
      rw [rank] at rest
      rw [rank, List.countP_cons_of_pos (by simpa using above), List.getElem?_cons_succ, rest,
        List.filter_cons_of_neg (by simpa using untied)]
    · have before : r c a := by
        rcases List.mem_cons.mp member with rfl | inside
        · exact (Std.Total.total a a).elim id id
        · exact List.rel_of_pairwise_cons sorted inside
      have after : r a c := by
        by_contra unrelated
        exact above ⟨before, unrelated⟩
      have none : rank r (c :: l) a = 0 := by
        rw [rank, List.countP_eq_zero]
        intro d there
        rw [decide_eq_true_iff]
        rintro ⟨_, apart⟩
        rcases List.mem_cons.mp there with rfl | inside
        · exact apart after
        · exact apart (IsTrans.trans a c d after (List.rel_of_pairwise_cons sorted inside))
      rw [none, List.filter_cons_of_pos (by simpa using ⟨after, before⟩)]
      rfl

/-- In a sorted list an element stands after all that are above it and after those it is
tied with that come before it. -/
theorem idxOf_of_sorted [Std.Total r] [IsTrans α r] [DecidableEq α] {l : List α}
    (sorted : l.Pairwise r) {a : α} (member : a ∈ l) :
    l.idxOf a = rank r l a + (l.filter fun b => Tied r a b).idxOf a := by
  induction l with
  | nil => cases member
  | cons c l ih =>
    by_cases same : c = a
    · subst same
      have reflexive : r c c := (Std.Total.total c c).elim id id
      have first : ∀ b ∈ c :: l, r c b := by
        rintro b (_ | ⟨_, inside⟩)
        · exact reflexive
        · exact List.rel_of_pairwise_cons sorted inside
      rw [rank_eq_zero_of_first first, List.filter_cons_of_pos (by simpa using ⟨reflexive, reflexive⟩)]
      simp
    · have inside : a ∈ l := (List.mem_cons.mp member).resolve_left (Ne.symm same)
      have rest := ih sorted.of_cons inside
      rw [List.idxOf_cons_ne l same, rest]
      have before : r c a := List.rel_of_pairwise_cons sorted inside
      by_cases after : r a c
      · -- Nothing is above what is tied with the first element.
        have first : ∀ b ∈ c :: l, r a b := by
          rintro b (_ | ⟨_, there⟩)
          · exact after
          · exact IsTrans.trans a c b after (List.rel_of_pairwise_cons sorted there)
        rw [rank_eq_zero_of_first first,
          rank_eq_zero_of_first fun b there => first b (List.mem_cons_of_mem _ there),
          List.filter_cons_of_pos (by simpa using ⟨after, before⟩), List.idxOf_cons_ne _ same]
        omega
      · have above : Above r a c := ⟨before, after⟩
        rw [rank, rank, List.countP_cons_of_pos (by simpa using above),
          List.filter_cons_of_neg (by simpa using fun tied : Tied r a c => after tied.1)]
        omega

theorem filter_tied_insertionSort [IsTrans α r] (l : List α) (a : α) :
    (l.insertionSort r).filter (fun b => Tied r a b) = l.filter fun b => Tied r a b := by
  have tied : (l.filter fun b => Tied r a b).Pairwise r := by
    apply List.pairwise_of_forall_mem_list
    intro b hb c hc
    have tb := of_decide_eq_true (List.mem_filter.mp hb).2
    have tc := of_decide_eq_true (List.mem_filter.mp hc).2
    exact IsTrans.trans b a c tb.2 tc.1
  have kept := (List.sublist_insertionSort tied List.filter_sublist).filter fun b => Tied r a b
  simp only [List.filter_filter, Bool.and_self] at kept
  have length := ((List.perm_insertionSort r l).filter fun b => Tied r a b).length_eq
  exact (kept.eq_of_length length.symm).symm

/-- What sorting puts before an element is what is above it, and what is tied with it and came
before it already. -/
theorem before_perm [Std.Total r] [IsTrans α r] {l x y before after : List α} {a : α}
    (distinct : l.Nodup) (split : l = x ++ a :: y) (sorted : l.insertionSort r = before ++ a :: after) :
    before.Perm ((l.filter fun b => Above r a b) ++ x.filter fun b => Tied r a b) := by
  have perm := List.perm_insertionSort r l
  have order := List.pairwise_insertionSort r l
  have stable := filter_tied_insertionSort (r := r) l a
  have nodup := perm.nodup_iff.mpr distinct
  have tied : Tied r a a := ⟨(Std.Total.total a a).elim id id, (Std.Total.total a a).elim id id⟩
  rw [sorted, List.pairwise_append, List.pairwise_cons] at order
  obtain ⟨_, ⟨later, _⟩, earlier⟩ := order
  have above : (l.filter fun b => Above r a b).Perm (before.filter fun b => Above r a b) := by
    refine (perm.symm.filter _).trans ?_
    have rest : (after.filter fun b => Above r a b) = [] := by
      rw [List.filter_eq_nil_iff]
      intro b member
      simp [Above, later b member]
    rw [sorted, List.filter_append, List.filter_cons_of_neg (by simp [Above, tied.1]), rest,
      List.append_nil]
  have ties : (before.filter fun b => Tied r a b) = x.filter fun b => Tied r a b := by
    rw [sorted, split, List.filter_append, List.filter_append,
      List.filter_cons_of_pos (by simpa using tied), List.filter_cons_of_pos (by simpa using tied)] at stable
    rw [sorted] at nodup
    obtain ⟨_, second, apart⟩ := List.nodup_append.mp nodup
    have freshBefore : a ∉ before := fun member => apart a member a List.mem_cons_self rfl
    have freshAfter : a ∉ after := (List.nodup_cons.mp second).1
    exact ((List.append_cons_inj_of_notMem (fun member => freshBefore (List.mem_filter.mp member).1)
      fun member => freshAfter (List.mem_filter.mp member).1).mp stable).1
  have halves : before.Perm ((before.filter fun b => Above r a b) ++ before.filter fun b => Tied r a b) := by
    refine (List.filter_append_perm (fun b => Above r a b) before).symm.trans ?_
    refine List.Perm.append_left _ (List.Perm.of_eq (List.filter_congr fun b member => ?_))
    have first : r b a := earlier b member a List.mem_cons_self
    simp [Above, Tied, first]
  rw [← ties]
  exact halves.trans (above.symm.append_right _)

section Selection

variable [Std.Total r] [IsTrans α r] {p : α → Bool}

/-- Sort, filter, take the first `k`: independent of the enumeration without ties. -/
theorem select_eq_of_perm {l m : List α} {k : Nat} (perm : l.Perm m)
    (decided : Decided r (l.filter p) k) :
    ((l.insertionSort r).filter p).take k = ((m.insertionSort r).filter p).take k := by
  have sortedL := (List.perm_insertionSort r l).filter p
  have sortedM := (List.perm_insertionSort r m).filter p
  apply take_eq_of_sorted (r := r)
  · exact (List.pairwise_insertionSort r l).filter p
  · exact (List.pairwise_insertionSort r m).filter p
  · exact (sortedL.trans (perm.filter p)).trans sortedM.symm
  · exact (decided_perm sortedL).mpr decided

/-- The element enumerated first comes out at its rank, ahead of all it is tied with. -/
theorem select_getElem?_rank {a : α} {l : List α} (chosen : p a) :
    (((a :: l).insertionSort r).filter p)[rank r ((a :: l).filter p) a]? = some a := by
  have perm := (List.perm_insertionSort r (a :: l)).filter p
  have member : a ∈ ((a :: l).insertionSort r).filter p := by
    simp [List.mem_filter, chosen]
  have tied : Tied r a a := ⟨(Std.Total.total a a).elim id id, (Std.Total.total a a).elim id id⟩
  rw [← rank_perm perm, getElem?_rank ((List.pairwise_insertionSort r _).filter p) member,
    List.filter_comm, filter_tied_insertionSort, List.filter_cons_of_pos (by simpa using tied),
    List.filter_cons_of_pos chosen]
  rfl

variable (r) in
/-- How many come before `a` when the list is sorted and the order of the list breaks ties. -/
def place [DecidableEq α] (l : List α) (a : α) : Nat :=
  rank r l a + (l.filter fun b => Tied r a b).idxOf a

theorem idxOf_select [DecidableEq α] {l : List α} {a : α} (member : a ∈ l.filter p) :
    ((l.insertionSort r).filter p).idxOf a = place r (l.filter p) a := by
  have perm := (List.perm_insertionSort r l).filter p
  have sorted := (List.pairwise_insertionSort r l).filter p
  rw [idxOf_of_sorted sorted (perm.mem_iff.mpr member), rank_perm perm, List.filter_comm,
    filter_tied_insertionSort, List.filter_comm, place]

/-- Those are selected that fewer than `k` come before. -/
theorem mem_select_iff [DecidableEq α] {l : List α} {k : Nat} {a : α} (member : a ∈ l.filter p) :
    a ∈ ((l.insertionSort r).filter p).take k ↔ place r (l.filter p) a < k := by
  have inside := ((List.perm_insertionSort r l).filter p).mem_iff.mpr member
  rw [List.mem_take_iff_idxOf_lt inside, idxOf_select member]

end Selection

section Prefix

variable [DecidableEq α] {l m : List α} {a b : α} {k : Nat}

/-- Two enumerations agree on the first `k` exactly if no two elements that they list in opposite
orders have the first of them among these. -/
theorem take_eq_take_iff (perm : l.Perm m) (nodup : l.Nodup) :
    l.take k = m.take k ↔ ∀ a ∈ l, ∀ b ∈ l, l.idxOf a < l.idxOf b → m.idxOf b < m.idxOf a →
      k ≤ l.idxOf a := by
  constructor
  · intro same a ha b hb first second
    by_contra early
    have taken : a ∈ l.take k := (List.mem_take_iff_idxOf_lt ha).mpr (Nat.lt_of_not_le early)
    have place : m.idxOf a = l.idxOf a := by
      rw [← (List.take_prefix k l).idxOf_eq_of_mem taken,
        ← (List.take_prefix k m).idxOf_eq_of_mem (same ▸ taken), same]
    have other : b ∈ m.take k :=
      (List.mem_take_iff_idxOf_lt (perm.mem_iff.mp hb)).mpr (by omega)
    have before : l.idxOf b = m.idxOf b := by
      rw [← (List.take_prefix k m).idxOf_eq_of_mem other,
        ← (List.take_prefix k l).idxOf_eq_of_mem (same.symm ▸ other), same]
    omega
  · intro agree
    induction l generalizing m k with
    | nil => rw [List.nil_perm.mp perm]
    | cons a l ih =>
      obtain ⟨fresh, rest⟩ := List.nodup_cons.mp nodup
      cases k with
      | zero => rfl
      | succ k =>
        cases m with
        | nil => exact absurd perm.symm (by simp)
        | cons b m =>
          by_cases same : a = b
          · subst same
            have later {c : α} (inside : c ∈ l) : a ≠ c := fun here => fresh (here ▸ inside)
            rw [List.take_succ_cons, List.take_succ_cons, ih perm.cons_inv rest]
            intro c hc d hd first second
            have bound := agree c (List.mem_cons_of_mem _ hc) d (List.mem_cons_of_mem _ hd)
            simp only [List.idxOf_cons_ne _ (later hc), List.idxOf_cons_ne _ (later hd)] at bound
            omega
          · -- The two heads are listed in opposite orders.
            have bound := agree a List.mem_cons_self b (perm.mem_iff.mpr List.mem_cons_self)
            rw [List.idxOf_cons_self, List.idxOf_cons_self, List.idxOf_cons_ne _ same,
              List.idxOf_cons_ne _ (Ne.symm same)] at bound
            omega

theorem rel_of_idxOf_lt {q : α → α → Prop} (sorted : m.Pairwise q) (ha : a ∈ m) (hb : b ∈ m)
    (less : m.idxOf a < m.idxOf b) : q a b := by
  have related := List.pairwise_iff_getElem.mp sorted _ _ (List.idxOf_lt_length_of_mem ha)
    (List.idxOf_lt_length_of_mem hb) less
  rwa [List.getElem_idxOf, List.getElem_idxOf] at related

/-- Where the order determines its elements, it is that of their positions. -/
theorem idxOf_lt_iff {q : α → α → Prop} (sorted : m.Pairwise q)
    (apart : ∀ a ∈ m, ∀ b ∈ m, q a b → q b a → a = b) (ha : a ∈ m) (hb : b ∈ m) :
    m.idxOf b < m.idxOf a ↔ q b a ∧ b ≠ a := by
  constructor
  · intro less
    exact ⟨rel_of_idxOf_lt sorted hb ha less, by rintro rfl; exact Nat.lt_irrefl _ less⟩
  · rintro ⟨before, different⟩
    rcases Nat.lt_trichotomy (m.idxOf b) (m.idxOf a) with less | same | more
    · exact less
    · exact absurd ((List.idxOf_inj hb).mp same) different
    · exact absurd (apart b hb a ha before (rel_of_idxOf_lt sorted ha hb more)) different

end Prefix

section Comparison

variable [DecidableEq α] [Std.Total r] [IsTrans α r] {q : α → α → Prop} [DecidableRel q] [Std.Total q]
  [IsTrans α q] {p : α → Bool} {l : List α} {k : Nat}

theorem rel_of_place_lt {a b : α} (ha : a ∈ l.filter p) (hb : b ∈ l.filter p)
    (less : place r (l.filter p) a < place r (l.filter p) b) : r a b := by
  have perm := (List.perm_insertionSort r l).filter p
  rw [← idxOf_select ha, ← idxOf_select hb] at less
  exact rel_of_idxOf_lt ((List.pairwise_insertionSort r l).filter p) (perm.mem_iff.mpr ha)
    (perm.mem_iff.mpr hb) less

/-- A stable selection is one by a finer order exactly if, of two elements that the finer order puts
the other way round, the first does not come among the first `k`. -/
theorem select_eq_take_iff (nodup : (l.filter p).Nodup)
    (apart : ∀ a ∈ l.filter p, ∀ b ∈ l.filter p, q a b → q b a → a = b) :
    ((l.insertionSort r).filter p).take k = ((l.filter p).insertionSort q).take k ↔
      ∀ a ∈ l.filter p, ∀ b ∈ l.filter p, place r (l.filter p) a < place r (l.filter p) b → q b a →
        k ≤ place r (l.filter p) a := by
  have permL := (List.perm_insertionSort r l).filter p
  have permM := List.perm_insertionSort q (l.filter p)
  have sorted := List.pairwise_insertionSort q (l.filter p)
  rw [take_eq_take_iff (permL.trans permM.symm) (permL.nodup_iff.mpr nodup)]
  have finer {a b : α} (ha : a ∈ l.filter p) (hb : b ∈ l.filter p) :
      ((l.filter p).insertionSort q).idxOf b < ((l.filter p).insertionSort q).idxOf a ↔ q b a ∧ b ≠ a :=
    idxOf_lt_iff sorted (fun c hc d hd => apart c (permM.mem_iff.mp hc) d (permM.mem_iff.mp hd))
      (permM.mem_iff.mpr ha) (permM.mem_iff.mpr hb)
  simp only [permL.mem_iff]
  constructor
  · intro agree a ha b hb less before
    have bound := agree a ha b hb
    rw [idxOf_select ha, idxOf_select hb] at bound
    exact bound less ((finer ha hb).mpr ⟨before, by rintro rfl; exact Nat.lt_irrefl _ less⟩)
  · intro agree a ha b hb less before
    rw [idxOf_select ha, idxOf_select hb] at less
    rw [idxOf_select ha]
    exact agree a ha b hb less ((finer ha hb).mp before).1

end Comparison

end StableSort

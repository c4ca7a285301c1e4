import CircuitCode.Proofs.Element.Refusal

/-!
# Setting a parameter step by step

Several changes of one parameter, one after the other, are made exactly if the parameter is in order
after each of them (`Element.changeAll_eq_ok_iff`), and what they leave are all their assignments.
The value and the two limits can be set one at a time in some order, and every order in which that
succeeds ends where setting them all at once does (`Element.stepwise_eq_setParameter`).
-/

namespace CircuitCode

namespace Number

theorem le_trans {a b c : Number} (hab : a ≤ b) (hbc : b ≤ c) : a ≤ c :=
  ⟨hab.1, hbc.2.1, Int.le_trans hab.2.2 hbc.2.2⟩

theorem le_of_lt {a b : Number} (h : a < b) : a ≤ b :=
  ⟨h.1, h.2.1, Int.le_of_lt h.2.2⟩

end Number

namespace ElementChange

/-- The parameter after several assignments. -/
def assignAll (p : Parameter) (changes : List ElementChange) : Parameter :=
  changes.foldl assign p

/-- After each of several assignments the value lies between the limits. -/
def KeepsOrder (p : Parameter) : List ElementChange → Prop
  | [] => True
  | change :: changes => (change.assign p).Ordered ∧ KeepsOrder (change.assign p) changes

/-- The changes of the value and of the two limits of a parameter, one at a time. -/
def numberChanges (name : String) (value lower upper : Number) : List ElementChange :=
  [.lower name lower, .value name value, .upper name upper]

variable {p : Parameter} {name : String} {value lower upper : Number}
  {order : List ElementChange}

theorem name?_of_mem_numberChanges {change : ElementChange}
    (h : change ∈ numberChanges name value lower upper) : change.name? = some name := by
  simp only [numberChanges, List.mem_cons, List.not_mem_nil, or_false] at h
  rcases h with rfl | rfl | rfl <;> rfl

/-- Assignments to different fields may be swapped. -/
theorem assign_assign_comm {first second : ElementChange}
    (hfirst : first ∈ numberChanges name value lower upper)
    (hsecond : second ∈ numberChanges name value lower upper) (p : Parameter) :
    second.assign (first.assign p) = first.assign (second.assign p) := by
  simp only [numberChanges, List.mem_cons, List.not_mem_nil, or_false] at hfirst hsecond
  rcases hfirst with rfl | rfl | rfl <;> rcases hsecond with rfl | rfl | rfl <;> rfl

/-- In whatever order the numbers are assigned, all of them are there in the end. -/
theorem assignAll_of_perm (h : order.Perm (numberChanges name value lower upper)) (p : Parameter) :
    assignAll p order = ⟨p.name, value, lower, upper, p.fixed⟩ := by
  have hcomm : ∀ first ∈ order, ∀ second ∈ order, ∀ p : Parameter,
      second.assign (first.assign p) = first.assign (second.assign p) :=
    fun first hfirst second hsecond p =>
      assign_assign_comm (h.mem_iff.mp hfirst) (h.mem_iff.mp hsecond) p
  exact h.foldl_eq' hcomm p

/-- Some order keeps the value between the limits all the way. A limit that the new value lies
    beyond has to make way first; if there is none, the value goes first. -/
theorem exists_keepsOrder (name : String) (hp : p.Ordered) (hlower : lower ≤ value)
    (hupper : value ≤ upper) :
    ∃ order, order.Perm (numberChanges name value lower upper) ∧ KeepsOrder p order := by
  obtain ⟨hplower, hpupper⟩ := hp
  by_cases habove : p.upper < value
  · have hvalue : p.value ≤ value := Number.le_trans hpupper (Number.le_of_lt habove)
    refine ⟨[.upper name upper, .value name value, .lower name lower], ?_, ?_, ?_, ?_, trivial⟩
    · exact List.reverse_perm (numberChanges name value lower upper)
    · exact ⟨hplower, Number.le_trans hvalue hupper⟩
    · exact ⟨Number.le_trans hplower hvalue, hupper⟩
    · exact ⟨hlower, hupper⟩
  · rw [Number.not_lt_iff hpupper.2.1 hupper.1] at habove
    by_cases hbelow : value < p.lower
    · have hvalue : value ≤ p.value := Number.le_trans (Number.le_of_lt hbelow) hplower
      refine ⟨numberChanges name value lower upper, List.Perm.refl _, ?_, ?_, ?_, trivial⟩
      · exact ⟨Number.le_trans hlower hvalue, hpupper⟩
      · exact ⟨hlower, Number.le_trans hvalue hpupper⟩
      · exact ⟨hlower, hupper⟩
    · rw [Number.not_lt_iff hupper.1 hplower.1] at hbelow
      refine ⟨[.value name value, .lower name lower, .upper name upper], ?_, ?_, ?_, ?_, trivial⟩
      · exact List.Perm.swap _ _ _
      · exact ⟨hbelow, habove⟩
      · exact ⟨hlower, habove⟩
      · exact ⟨hlower, hupper⟩

end ElementChange

namespace Element

open ElementChange

variable {e e' : Element} {name : String} {changes : List ElementChange}

/-- The element after several changes, if all of them are allowed. -/
def changeAll (e : Element) (changes : List ElementChange) : Except ElementError Element :=
  changes.foldlM (fun e change => accepted (e.change change)) e

theorem changeAll_cons_eq_ok_iff {change : ElementChange} :
    e.changeAll (change :: changes) = .ok e' ↔
      ∃ e₁, e.change change = (e₁, .ok ()) ∧ e₁.changeAll changes = .ok e' := by
  simp only [← accepted_eq_ok_iff]
  unfold changeAll
  rw [List.foldlM_cons]
  cases accepted (e.change change) <;> simp [bind, Except.bind]

theorem WellFormed.changeAll (he : e.WellFormed) (h : e.changeAll changes = .ok e') :
    e'.WellFormed := by
  induction changes generalizing e with
  | nil =>
    obtain rfl : e = e' := Except.ok.inj h
    exact he
  | cons change changes ih =>
    obtain ⟨e₁, hfirst, hrest⟩ := changeAll_cons_eq_ok_iff.mp h
    exact ih (he.of_change hfirst) hrest

/-- The assignments of a change and of those after it, made to one parameter. -/
theorem map_assignAll_applied {change : ElementChange} (hname : change.name? = some name)
    (changes : List ElementChange) :
    ((change.applied e).parameters.map fun q =>
        if q.name = name then assignAll q changes else q) =
      e.parameters.map fun q => if q.name = name then assignAll q (change :: changes) else q := by
  rw [applied_of_name? hname, List.map_map]
  refine List.map_congr_left fun q _ => ?_
  by_cases hq : q.name = name
  · simp [hq, name_assign, assignAll]
  · simp [hq]

/-- Changes of one parameter are made exactly if each of them leaves it in order. -/
theorem changeAll_eq_ok_iff (he : e.WellFormed) {p : Parameter} (hp : p ∈ e.parameters)
    (hchanges : ∀ change ∈ changes, change.name? = some p.name) :
    e.changeAll changes = .ok e' ↔
      KeepsOrder p changes ∧
        e' = { e with parameters := e.parameters.map fun q =>
          if q.name = p.name then assignAll q changes else q } := by
  induction changes generalizing e p with
  | nil => simp [changeAll, KeepsOrder, assignAll, pure, Except.pure, eq_comm]
  | cons change changes ih =>
    obtain ⟨hname, hchanges⟩ := List.forall_mem_cons.mp hchanges
    have hfirst (e₁ : Element) : e.change change = (e₁, .ok ()) ↔
        (change.assign p).Ordered ∧ e₁ = change.applied e := by
      rw [change_eq_ok_iff he hname]
      constructor
      · rintro ⟨-, hordered, rfl⟩
        exact ⟨hordered p hp rfl, rfl⟩
      · rintro ⟨hordered, rfl⟩
        refine ⟨List.mem_map_of_mem hp, fun q hq hqname => ?_, rfl⟩
        rwa [List.inj_on_of_nodup_map he.nodup_names hq hp hqname]
    have hrest (hordered : (change.assign p).Ordered) :
        (change.applied e).changeAll changes = .ok e' ↔
          KeepsOrder (change.assign p) changes ∧
            e' = { e with parameters := e.parameters.map fun q =>
              if q.name = p.name then assignAll q (change :: changes) else q } := by
      have hmem : change.assign p ∈ (change.applied e).parameters := by
        rw [applied_of_name? hname]
        exact List.mem_map.mpr ⟨p, hp, if_pos rfl⟩
      rw [ih (he.of_change ((hfirst _).mpr ⟨hordered, rfl⟩)) hmem (by rwa [name_assign]),
        name_assign, map_assignAll_applied hname, applied_of_name? hname]
    simp only [changeAll_cons_eq_ok_iff, hfirst, KeepsOrder]
    constructor
    · rintro ⟨_, ⟨hordered, rfl⟩, hok⟩
      obtain ⟨hkeeps, rfl⟩ := (hrest hordered).mp hok
      exact ⟨⟨hordered, hkeeps⟩, rfl⟩
    · rintro ⟨⟨hordered, hkeeps⟩, rfl⟩
      exact ⟨_, ⟨hordered, rfl⟩, (hrest hordered).mpr ⟨hkeeps, rfl⟩⟩

/-- The value and the limits of a parameter can be set one at a time. In some order of the three
    changes all of them are made, and after every such order the element is, once the flag is set,
    what it becomes if value, limits and flag are set at once. -/
theorem stepwise_eq_setParameter {value lower upper : Number} (he : e.WellFormed)
    (hname : name ∈ e.parameters.map Parameter.name) (hlower : lower ≤ value)
    (hupper : value ≤ upper) (fixed : Bool) :
    (∃ order e₁, order.Perm (numberChanges name value lower upper) ∧
      e.changeAll order = .ok e₁) ∧
    ∀ order e₁, order.Perm (numberChanges name value lower upper) →
      e.changeAll order = .ok e₁ →
      ∃ e', e₁.setFixed name fixed = .ok e' ∧
        e.setParameter name value lower upper fixed = .ok e' := by
  obtain ⟨p, hp, rfl⟩ := List.mem_map.mp hname
  have hnames {order : List ElementChange}
      (horder : order.Perm (numberChanges p.name value lower upper)) :
      ∀ change ∈ order, change.name? = some p.name :=
    fun change hchange => name?_of_mem_numberChanges (horder.mem_iff.mp hchange)
  constructor
  · obtain ⟨order, horder, hkeeps⟩ :=
      exists_keepsOrder p.name (he.ordered p hp) hlower hupper
    exact ⟨order, _, horder, (changeAll_eq_ok_iff he hp (hnames horder)).mpr ⟨hkeeps, rfl⟩⟩
  · intro order e₁ horder hok
    have he₁ := he.changeAll hok
    obtain ⟨-, rfl⟩ := (changeAll_eq_ok_iff he hp (hnames horder)).mp hok
    have hflag : (ElementChange.fixed p.name fixed).name? = some p.name := rfl
    refine ⟨_, ?_, (setParameter_eq_ok_iff he.nodup_names).mpr ⟨hname, hlower, hupper, rfl⟩⟩
    refine accepted_eq_ok_iff.mpr <|
      (change_eq_ok_iff he₁ hflag).mpr ⟨?_, fun q hq _ => he₁.ordered q hq, ?_⟩
    · rw [he₁.names, ← he.names]
      exact hname
    · rw [applied_of_name? rfl, List.map_map]
      congr 1
      refine List.map_congr_left fun q _ => ?_
      by_cases hq : q.name = p.name
      · simp [hq, assignAll_of_perm horder, assign]
      · simp [hq]

/-- The exponent of a modified inductor, moved to numbers that lie above its limits so far. Here
    only the order that ends with the lower limit is made. -/
theorem stepwise_eq_setParameter_exponent :
    (∃ order e₁, order.Perm (numberChanges "n" 2 1.5 3) ∧
      (ofKind .modifiedInductor).changeAll order = .ok e₁) ∧
    (ofKind .modifiedInductor).changeAll (numberChanges "n" 2 1.5 3) =
      .error (.limitOrder "n" 1.5 1) ∧
    ∃ e₁ e', (ofKind .modifiedInductor).changeAll (numberChanges "n" 2 1.5 3).reverse = .ok e₁ ∧
      e₁.setFixed "n" true = .ok e' ∧
      (ofKind .modifiedInductor).setParameter "n" 2 1.5 3 true = .ok e' := by
  have hmade : (Element.changeAll (ofKind .modifiedInductor)
      (numberChanges "n" 2 1.5 3).reverse).isOk = true := by
    decide +kernel
  have hname : "n" ∈ (ofKind .modifiedInductor).parameters.map Parameter.name := by decide
  have hlower : (1.5 : Number) ≤ 2 := by decide +kernel
  have hupper : (2 : Number) ≤ 3 := by decide +kernel
  obtain ⟨horder, hsame⟩ :=
    stepwise_eq_setParameter (wellFormed_ofKind .modifiedInductor) hname hlower hupper true
  refine ⟨horder, by decide +kernel, ?_⟩
  cases hok : Element.changeAll (ofKind .modifiedInductor)
      (numberChanges "n" 2 1.5 3).reverse with
  | error cause =>
    rw [hok] at hmade
    cases hmade
  | ok e₁ =>
    obtain ⟨e', hfixed, hset⟩ := hsame _ e₁ (List.reverse_perm _) hok
    exact ⟨e₁, e', rfl, hfixed, hset⟩

end Element

end CircuitCode

import RusqlEngine.AutoIncrement
import Mathlib.Data.List.ReduceOption

/-!
# Fresh numbers

A number that is generated is larger than every number stored before it: the counter is never
below a stored number and the window lies above all of them. This holds along the runs on an
integer column whose sums stay in `std::int64_t`.
-/

namespace RusqlEngine.AutoIncrement

open Function

/-- What an earlier event asks of a later one: a generated number is larger than one that is
stored, and no two stored ones that were generated are equal. -/
def Before : Event → Event → Prop
  | .stored i v _, .drawn j n => i = j → v < n
  | .stored i v g, .stored j v' g' => i = j → g → g' → v ≠ v'
  | .drawn .., _ => True

def Fresh (events : List Event) : Prop :=
  events.Pairwise Before

def State.events (s : State) : List Event :=
  s.history ++ s.insert.elim [] Insert.events

/-- A column that holds the generated numbers as they are. -/
structure Column.Integer (c : Column) : Prop where
  keeps : ∀ (n : Int) text, c.coerce (toString n) = some text → text = toString n
  value : ∀ n : Int, c.value (toString n) = n

/-- The sums of the next number stay in `std::int64_t`. -/
def Room (rows : List (List String)) (w : Work) : Prop :=
  let before := counterOf rows w.counters 0
  if w.ins.exhausted then
    InInt64 (before + w.ins.batch) ∧ InInt64 (before + 1) ∧ InInt64 (before + 1 + 1) ∧
      (w.ins.reservesAll = false → InInt64 (w.ins.nextBatch + w.ins.nextBatch))
  else ∀ win ∈ w.ins.window, InInt64 (win.next + 1)

/-- ON DUPLICATE KEY UPDATE does not assign the column. -/
def Ending.AssignsNothing : Ending → Prop
  | .updates _ assigned _ => ∀ a ∈ assigned, a = none
  | .updatesEarlier _ assigned => ∀ a ∈ assigned, a = none
  | _ => True

def Fate.AssignsNothing : Fate → Prop
  | .passes ending => ending.AssignsNothing
  | _ => True

def Insert.unwound (ins : Insert) : List CounterTake :=
  ins.takes.takeWhile fun take => !take.reserved

/-- The condition on a step. -/
def Fits (column : Column) (s : State) : Action → Prop
  | .insert .. => True
  | .row cells fate => ∀ ins ∈ s.insert, ∀ text, cells = [text] →
      (generates text → Room s.rows { counters := s.counters, ins := ins }) ∧
      (generates text = false → ∀ t, column.coerce text = some t →
        ∃ v rest, fromChars t = some (v, rest) ∧ column.value t = v) ∧
      fate.AssignsNothing
  | .finish failing => failing ≠ none → ∀ ins ∈ s.insert, ∀ take ∈ ins.unwound,
      ∀ text, [text] ∈ ins.prepared → column.value text ≤ take.before
  | .throws => True

/-! ### Texts of numbers -/

theorem takeWhile_toDigits (n : Nat) :
    (Nat.toDigits 10 n).takeWhile Char.isDigit = Nat.toDigits 10 n :=
  List.takeWhile_eq_self_iff.mpr fun _ hc =>
    Nat.isDigit_of_mem_toDigits (by decide) (by decide) hc

theorem dropWhile_toDigits (n : Nat) : (Nat.toDigits 10 n).dropWhile Char.isDigit = [] :=
  List.dropWhile_eq_nil_iff.mpr fun _ hc =>
    Nat.isDigit_of_mem_toDigits (by decide) (by decide) hc

theorem leadingNumber_toString (n : Int) : leadingNumber (toString n) = some (n, []) := by
  cases n with
  | ofNat m =>
    have hlist : (toString (Int.ofNat m)).toList = Nat.toDigits 10 m := Nat.toList_repr
    have hhead : (Nat.toDigits 10 m).head? ≠ some '-' := by
      intro hc
      have hdigit := Nat.isDigit_of_mem_toDigits (b := 10) (by decide) (by decide)
        (List.mem_of_mem_head? hc)
      exact absurd hdigit (by decide)
    simp only [leadingNumber, hlist, hhead, if_false, takeWhile_toDigits, dropWhile_toDigits,
      Nat.ofDigitChars_ten_toDigits]
    exact if_neg Nat.toDigits_ne_nil
  | negSucc m =>
    have htext : toString (Int.negSucc m) = "-" ++ Nat.repr (m + 1) := rfl
    have hlist : (toString (Int.negSucc m)).toList = '-' :: Nat.toDigits 10 (m + 1) := by
      rw [htext, String.toList_append, Nat.toList_repr]
      rfl
    have hneg : -((m + 1 : Nat) : Int) = Int.negSucc m := rfl
    simp only [leadingNumber, hlist, List.head?_cons, List.tail_cons, if_true,
      takeWhile_toDigits, dropWhile_toDigits, Nat.ofDigitChars_ten_toDigits, hneg]
    exact if_neg Nat.toDigits_ne_nil

variable {n : Int}

theorem fromChars_toString (h : InInt64 n) : fromChars (toString n) = some (n, []) := by
  rw [fromChars, leadingNumber_toString, Option.filter_some, if_pos (decide_eq_true h)]

theorem fromChars_executorNull : fromChars executorNull = none := by
  decide

/-! ### Numbers put back -/

/-- Each take, last first, moved the counter on from where the one before it had left it. -/
inductive Chained : Int → List CounterTake → Prop
  | nil (c : Int) : Chained c []
  | cons {c : Int} {take : CounterTake} {takes : List CounterTake} (hcolumn : take.column = 0)
      (hafter : take.after = c) (hlt : take.before < c) (h : Chained take.before takes) :
      Chained c (take :: takes)

variable {c : Int}

theorem Chained.column {takes : List CounterTake} (h : Chained c takes) :
    ∀ take ∈ takes, take.column = 0 := by
  induction h with
  | nil => simp
  | cons hcolumn _ _ _ ih => exact List.forall_mem_cons.mpr ⟨hcolumn, ih⟩

theorem Chained.after_le {takes : List CounterTake} (h : Chained c takes) :
    ∀ take ∈ takes, take.after ≤ c := by
  induction h with
  | nil => simp
  | cons _ hafter hlt _ ih =>
    exact List.forall_mem_cons.mpr ⟨hafter.le, fun t ht => (ih t ht).trans hlt.le⟩

theorem undo_zero {burn : Bool} {takes : List CounterTake} {counters : Counters}
    (h : ∀ take ∈ takes, take.column = 0) :
    undo burn takes counters 0 = counters 0 ∨
      ∃ take ∈ takes, undo burn takes counters 0 = some take.before := by
  induction takes generalizing counters with
  | nil => exact .inl rfl
  | cons take takes ih =>
    obtain ⟨hcolumn, htakes⟩ := List.forall_mem_cons.mp h
    rw [undo]
    rcases ih htakes with hstay | ⟨t, ht, hback⟩
    · rw [hstay]
      split_ifs
      · exact .inl rfl
      · rw [hcolumn, update_self]
        exact .inr ⟨take, List.mem_cons_self, rfl⟩
      · exact .inl rfl
    · exact .inr ⟨t, List.mem_cons_of_mem _ ht, hback⟩

theorem undo_of_lt {burn : Bool} {takes : List CounterTake} {counters : Counters}
    (hc : counters 0 = some c) (h : ∀ take ∈ takes, take.column = 0 ∧ take.after < c) :
    undo burn takes counters 0 = some c := by
  induction takes with
  | nil => exact hc
  | cons take takes ih =>
    obtain ⟨⟨hcolumn, hlt⟩, htakes⟩ := List.forall_mem_cons.mp h
    rw [undo, hcolumn, hc, if_neg (fun heq => hlt.ne' (Option.some.inj heq)), ite_self]
    exact ih htakes

theorem undo_burn {takes : List CounterTake} {counters : Counters} (hc : counters 0 = some c)
    (h : Chained c takes) :
    undo true takes counters 0 = some c ∨
      ∃ take ∈ takes.takeWhile fun take => !take.reserved,
        undo true takes counters 0 = some take.before := by
  induction h generalizing counters with
  | nil => exact .inl hc
  | @cons c take takes hcolumn hafter hlt htakes ih =>
    rw [undo]
    cases hreserved : take.reserved with
    | true =>
      refine .inl ?_
      simp only [Bool.and_self, if_true]
      exact undo_of_lt hc fun t ht =>
        ⟨htakes.column t ht, (htakes.after_le t ht).trans_lt hlt⟩
    | false =>
      simp only [Bool.false_and, Bool.false_eq_true, if_false, hcolumn, hc, hafter, if_true]
      have hnext := @ih (update counters 0 (some take.before))
        (update_self ..)
      rw [List.takeWhile_cons, hreserved]
      rcases hnext with hstay | ⟨t, ht, hback⟩
      · exact .inr ⟨take, List.mem_cons_self, hstay⟩
      · exact .inr ⟨t, List.mem_cons_of_mem _ ht, hback⟩

/-! ### The events of a row -/

variable {l : List Event}

theorem fresh_append_drawn (h : Fresh l) (hlt : ∀ (v : ℚ) g, .stored 0 v g ∈ l → v < (n : ℚ)) :
    Fresh (l ++ [.drawn 0 n]) := by
  refine List.pairwise_append.mpr ⟨h, List.pairwise_singleton _ _, fun e he e' he' => ?_⟩
  obtain rfl := List.mem_singleton.mp he'
  cases e with
  | drawn => trivial
  | stored i v g =>
    rintro rfl
    exact hlt v g he

theorem fresh_append_stored {v : ℚ} {g : Bool} (h : Fresh l)
    (hne : g → ∀ v' g', .stored 0 v' g' ∈ l → v' < v) : Fresh (l ++ [.stored 0 v g]) := by
  refine List.pairwise_append.mpr ⟨h, List.pairwise_singleton _ _, fun e he e' he' => ?_⟩
  obtain rfl := List.mem_singleton.mp he'
  cases e with
  | drawn => trivial
  | stored i v' g' =>
    rintro rfl - hg
    exact (hne hg v' g' he).ne

/-- What holds of a statement in progress. -/
structure Sound (column : Column) (rows : List (List String)) (history : List Event)
    (w : Work) : Prop where
  fresh : Fresh (history ++ w.ins.events)
  bounded : ∀ (v : ℚ) g, .stored 0 v g ∈ history ++ w.ins.events → v ≤ counterOf rows w.counters 0
  base : ∀ (v : ℚ) g, .stored 0 v g ∈ history → ∀ take ∈ w.ins.takes, v ≤ take.before
  chained : Chained (counterOf rows w.counters 0) w.ins.takes
  counted : w.ins.takes ≠ [] → w.counters 0 = some (counterOf rows w.counters 0)
  window : ∀ win ∈ w.ins.window, win.last = counterOf rows w.counters 0 ∧
    int64Min ≤ win.next ∧ win.next ≤ win.last + 1 ∧
    ∀ (v : ℚ) g, .stored 0 v g ∈ history ++ w.ins.events → v < win.next
  nextBatch : 1 ≤ w.ins.nextBatch
  prepared : ∀ (v : ℚ) g, .stored 0 v g ∈ w.ins.events →
    ∃ text, [text] ∈ w.ins.prepared ∧ column.value text = v
  updates : ∀ u ∈ w.ins.pendingUpdates, ∀ a ∈ u.2, a = none

section

variable {column : Column} {rows : List (List String)} {history : List Event} {w : Work}

theorem counters_update {counters : Counters} {i : Nat} : update counters i (some c) i = some c :=
  update_self ..

theorem counterOf_update {counters : Counters} {i : Nat} :
    counterOf rows (update counters i (some c)) i = c := by
  rw [counterOf, counters_update, Option.getD_some]

theorem addInt64_eq {a b : Int} (h : InInt64 (a + b)) : addInt64 a b = some (a + b) :=
  if_pos h

/-- A counter that is not lower, and a window above what is stored. -/
theorem Sound.moved (h : Sound column rows history w) {next last nextBatch : Int}
    {reservedBefore : Bool} {takes : List CounterTake} (hc : counterOf rows w.counters 0 ≤ c)
    (hchained : Chained c takes)
    (htakes : ∀ take ∈ takes, take ∈ w.ins.takes ∨ take.before = counterOf rows w.counters 0)
    (hlast : last = c) (hmin : int64Min ≤ next) (hnext : next ≤ last + 1)
    (habove : ∀ (v : ℚ) g, .stored 0 v g ∈ history ++ w.ins.events → v < (next : ℚ))
    (hbatch : 1 ≤ nextBatch) :
    Sound column rows history {
      counters := update w.counters 0 (some c)
      ins := { w.ins with
        window := some { next := next, last := last }
        nextBatch := nextBatch
        reservedBefore := reservedBefore
        takes := takes } } where
  fresh := h.fresh
  bounded v g hv := by
    rw [counterOf_update]
    exact (h.bounded v g hv).trans (Int.cast_le.mpr hc)
  base v g hv take htake := by
    rcases htakes take htake with hold | hnew
    · exact h.base v g hv take hold
    · rw [hnew]
      exact h.bounded v g (List.mem_append_left _ hv)
  chained := by
    rw [counterOf_update]
    exact hchained
  counted _ := by
    rw [counterOf_update]
    simp only [counters_update]
  window win hwin := by
    obtain rfl := Option.some.inj hwin
    rw [counterOf_update]
    exact ⟨hlast, hmin, hnext, habove⟩
  nextBatch := hbatch
  prepared := h.prepared
  updates := h.updates

/-- The next number is larger than every stored one and leaves the statement sound. -/
theorem draw_sound (h : Sound column rows history w) (hsize : 0 < w.ins.size)
    (hroom : Room rows w) :
    ∃ n w', draw rows w 0 = some (n, w') ∧ Sound column rows history w' ∧
      (∀ (v : ℚ) g, .stored 0 v g ∈ history ++ w.ins.events → v < (n : ℚ)) ∧
      InInt64 n ∧ n ≤ counterOf rows w'.counters 0 ∧
      w'.counters 0 = some (counterOf rows w'.counters 0) ∧
      (∃ last, w'.ins.window = some { next := n + 1, last := last }) ∧
      ∃ window nextBatch reservedBefore takes, w'.ins = { w.ins with
        window := window, nextBatch := nextBatch, reservedBefore := reservedBefore,
        takes := takes } := by
  rw [Room] at hroom
  rw [draw]
  cases hexhausted : w.ins.exhausted with
  | true =>
    simp only [hexhausted, if_true] at hroom ⊢
    obtain ⟨hlast, hnext, hafter, hdouble⟩ := hroom
    have hbatch : 1 ≤ w.ins.batch := by
      rw [Insert.batch]
      split_ifs
      · omega
      · exact h.nextBatch
    obtain ⟨nextBatch, hnextBatch, hone⟩ : ∃ nextBatch,
        (if w.ins.reservesAll then some w.ins.nextBatch
          else addInt64 w.ins.nextBatch w.ins.nextBatch) = some nextBatch ∧
        1 ≤ nextBatch := by
      have := h.nextBatch
      cases hall : w.ins.reservesAll with
      | true => exact ⟨_, if_pos rfl, this⟩
      | false =>
        refine ⟨_, (if_neg Bool.false_ne_true).trans (addInt64_eq (hdouble hall)), ?_⟩
        omega
    have hlt : ∀ (v : ℚ) g, .stored 0 v g ∈ history ++ w.ins.events →
        v < ((counterOf rows w.counters 0 + 1 : Int) : ℚ) := fun v g hv =>
      (h.bounded v g hv).trans_lt (Int.cast_lt.mpr (Int.lt_succ _))
    rw [Insert.reserve, hnextBatch, addInt64_eq hnext, addInt64_eq hlast]
    simp only [Option.bind_some, Option.map_some, Insert.takeNext, addInt64_eq hafter]
    refine ⟨_, _, rfl, ?_, hlt, hnext, ?_, ?_, ⟨_, rfl⟩, ⟨_, _, _, _, rfl⟩⟩
    · have hchained : Chained (counterOf rows w.counters 0 + w.ins.batch)
          ({ column := 0, before := counterOf rows w.counters 0,
             after := counterOf rows w.counters 0 + w.ins.batch, reserved := true } ::
            w.ins.takes) :=
        .cons rfl rfl (Int.lt_add_of_pos_right _ (by omega)) h.chained
      refine h.moved (Int.le_add_of_nonneg_right (by omega)) hchained ?_ rfl
        (by have := hnext.1; omega) (by omega)
        (fun v g hv => (hlt v g hv).trans (Int.cast_lt.mpr (Int.lt_succ _))) hone
      intro take htake
      rcases List.mem_cons.mp htake with rfl | hold
      · exact .inr rfl
      · exact .inl hold
    · rw [counterOf_update]
      omega
    · rw [counterOf_update]
      simp only [counters_update]
  | false =>
    simp only [hexhausted, Bool.false_eq_true, if_false] at hroom ⊢
    obtain ⟨win, hwin, hle⟩ : ∃ win, w.ins.window = some win ∧ win.next ≤ win.last := by
      rw [Insert.exhausted] at hexhausted
      cases hwin : w.ins.window with
      | none =>
        rw [hwin] at hexhausted
        cases hexhausted
      | some win =>
        rw [hwin, Option.elim_some, decide_eq_false_iff_not, not_lt] at hexhausted
        exact ⟨win, rfl, hexhausted⟩
    obtain ⟨hlast, hmin, -, habove⟩ := h.window win hwin
    have hroom := hroom win hwin
    simp only [Insert.takeNext, hwin, Option.bind_some, addInt64_eq hroom, Option.map_some]
    refine ⟨_, _, rfl, ?_, habove, ?_, ?_, ?_, ⟨_, rfl⟩, ⟨_, _, _, _, rfl⟩⟩
    · exact h.moved le_rfl h.chained (fun take htake => .inl htake) hlast (by omega) (by omega)
        (fun v g hv => (habove v g hv).trans (Int.cast_lt.mpr (Int.lt_succ _))) h.nextBatch
    · exact ⟨hmin, by have := hroom.2; omega⟩
    · rw [counterOf_update]
      omega
    · rw [counterOf_update]
      simp only [counters_update]

variable {text : String} {rest : List Char}

theorem takeWritten_eq_self {v : Int} (hfrom : fromChars text = some (v, rest))
    (hcounter : w.counters 0 = some (counterOf rows w.counters 0))
    (hle : v ≤ counterOf rows w.counters 0) : takeWritten rows 0 text w = w := by
  rw [takeWritten, hfrom]
  simp only [not_lt.mpr hle, if_false, ite_eq_left_iff]
  intro _
  rw [← hcounter, update_eq_self]

/-- A number written by hand is not above the counter behind it. -/
theorem takeWritten_sound (h : Sound column rows history w) (hwindow : w.ins.window = none)
    {v : Int} (hfrom : fromChars text = some (v, rest)) :
    Sound column rows history (takeWritten rows 0 text w) ∧
      v ≤ counterOf rows (takeWritten rows 0 text w).counters 0 ∧
      (takeWritten rows 0 text w).counters 0 =
        some (counterOf rows (takeWritten rows 0 text w).counters 0) ∧
      ∃ takes, (takeWritten rows 0 text w).ins = { w.ins with takes := takes } := by
  have hne : text ≠ executorNull := by
    rintro rfl
    rw [fromChars_executorNull] at hfrom
    cases hfrom
  rw [takeWritten, if_neg hne, hfrom]
  dsimp only
  split_ifs with hlt
  · refine ⟨⟨h.fresh, fun v' g hv => ?_, fun v' g hv take htake => ?_, ?_, fun _ => ?_,
      fun win hwin => ?_, h.nextBatch, h.prepared, h.updates⟩, ?_, ?_, ⟨_, rfl⟩⟩
    · rw [counterOf_update]
      exact (h.bounded v' g hv).trans (Int.cast_le.mpr hlt.le)
    · rcases List.mem_cons.mp htake with rfl | hold
      · exact h.bounded v' g (List.mem_append_left _ hv)
      · exact h.base v' g hv take hold
    · rw [counterOf_update]
      exact .cons rfl rfl hlt h.chained
    · simp only [counters_update, counterOf_update]
    · rw [hwindow] at hwin
      cases hwin
    · rw [counterOf_update]
    · simp only [counters_update, counterOf_update]
  · refine ⟨⟨h.fresh, fun v' g hv => ?_, h.base, ?_, fun _ => ?_, fun win hwin => ?_,
      h.nextBatch, h.prepared, h.updates⟩, ?_, ?_, ⟨_, rfl⟩⟩
    · rw [counterOf_update]
      exact h.bounded v' g hv
    · rw [counterOf_update]
      exact h.chained
    · simp only [counters_update, counterOf_update]
    · rw [hwindow] at hwin
      cases hwin
    · rw [counterOf_update]
      exact not_lt.mp hlt
    · simp only [counters_update, counterOf_update]

variable {assigned : Assigned}

theorem assign_eq_self (h : ∀ a ∈ assigned, a = none) (cells : List String) :
    assign assigned cells = cells := by
  have hnone : ∀ i : Nat, (assigned[i]?).join = none := by
    intro i
    cases hi : assigned[i]? with
    | none => rfl
    | some a => exact h a (List.mem_of_getElem? hi)
  simp [assign, hnone, List.mapIdx_eq_zipIdx_map]

theorem assignedEvents_eq_nil {columns : List Column} (h : ∀ a ∈ assigned, a = none) :
    assignedEvents columns assigned = [] := by
  refine List.eq_nil_iff_forall_not_mem.mpr fun e he => ?_
  rw [assignedEvents, List.reduceOption_mem_iff, List.mem_mapIdx] at he
  obtain ⟨i, hi, he⟩ := he
  have hnone : ((columns.zip assigned)[i]).2 = none :=
    h _ (List.of_mem_zip (List.getElem_mem hi)).2
  dsimp only at he
  rw [hnone] at he
  cases he

/-- What is known of the row's number behind the checks of its columns. -/
structure Numbered (column : Column) (rows : List (List String)) (history : List Event)
    (w : Work) (number : Option Int) (text : String) : Prop where
  generated : ∀ n ∈ number, column.value text = n ∧ int64Min ≤ n ∧
    (∀ (v : ℚ) g, .stored 0 v g ∈ history ++ w.ins.events → v < n) ∧
    ∃ last, w.ins.window = some { next := n + 1, last := last }
  written : number = none → w.ins.window = none
  bounded : column.value text ≤ counterOf rows w.counters 0

variable {number : Option Int}

theorem giveBack_sound (h : Sound column rows history w)
    (hnumber : Numbered column rows history w number text) :
    Sound column rows history { w with ins := w.ins.giveBack number } ∧
      ∃ window, w.ins.giveBack number = { w.ins with window := window } := by
  have hsame : w.ins.giveBack number = w.ins → Sound column rows history
      { w with ins := w.ins.giveBack number } ∧
      ∃ window, w.ins.giveBack number = { w.ins with window := window } := by
    intro heq
    rw [heq]
    exact ⟨h, _, rfl⟩
  cases number with
  | none => exact hsame rfl
  | some n =>
    obtain ⟨-, hmin, hlt, last, hwindow⟩ := hnumber.generated n rfl
    by_cases hzero : n = 0
    · refine hsame ?_
      simp only [Insert.giveBack, hwindow]
      exact if_neg fun hn => hn.1 hzero
    · have heq : w.ins.giveBack (some n) =
          { w.ins with window := some { next := n, last := last } } := by
        simp only [Insert.giveBack, hwindow]
        exact if_pos ⟨hzero, trivial⟩
      obtain ⟨hlast, -, hnext, -⟩ := h.window _ hwindow
      rw [heq]
      refine ⟨⟨h.fresh, h.bounded, h.base, h.chained, h.counted, fun win hwin => ?_,
        h.nextBatch, h.prepared, h.updates⟩, _, rfl⟩
      obtain rfl := Option.some.inj hwin
      exact ⟨hlast, hmin, by dsimp only at hnext ⊢; omega, hlt⟩

/-- Between two rows: what is reserved is lost in any case, and the counter has a value. -/
structure Settled (w : Work) : Prop where
  burnt : w.ins.takes = [] ∨ w.ins.burnReservation = true
  started : w.counters 0 ≠ none ∨
    w.ins.takes = [] ∧ w.ins.prepared = [] ∧ w.ins.pendingUpdates = []

/-- A row ends or the statement fails, and the numbers stay sound. -/
def Outcome.Sound (column : Column) (rows : List (List String)) (history : List Event) :
    Outcome → Prop
  | .overflows => False
  | .fails w => AutoIncrement.Sound column rows history w
  | .goesOn w => AutoIncrement.Sound column rows history w ∧ Settled w

theorem Sound.withPending (h : Sound column rows history w) {row : Nat}
    (hassigned : ∀ a ∈ assigned, a = none) :
    Sound column rows history { w with ins := { w.ins with
      pendingUpdates := w.ins.pendingUpdates ++ [(row, assigned)] } } := by
  refine ⟨h.fresh, h.bounded, h.base, h.chained, h.counted, h.window, h.nextBatch, h.prepared,
    fun u hu => ?_⟩
  rcases List.mem_append.mp hu with hold | hnew
  · exact h.updates u hold
  · obtain rfl := List.mem_singleton.mp hnew
    exact hassigned

theorem Sound.withStored (h : Sound column rows history w)
    (hnumber : Numbered column rows history w number text) :
    Sound column rows history { w with ins := { w.ins with
      prepared := w.ins.prepared ++ [[text]]
      events := w.ins.events ++ [.stored 0 (column.value text) number.isSome] } } := by
  have hmem : ∀ {v : ℚ} {g}, .stored 0 v g ∈ history ++ (w.ins.events ++
      [.stored 0 (column.value text) number.isSome]) →
      .stored 0 v g ∈ history ++ w.ins.events ∨ v = column.value text := by
    intro v g hv
    rw [← List.append_assoc] at hv
    rcases List.mem_append.mp hv with hold | hnew
    · exact .inl hold
    · have heq := List.mem_singleton.mp hnew
      rw [Event.stored.injEq] at heq
      exact .inr heq.2.1
  refine ⟨?_, fun v g hv => ?_, h.base, h.chained, h.counted, fun win hwin => ?_, h.nextBatch,
    fun v g hv => ?_, h.updates⟩
  · dsimp only
    rw [← List.append_assoc]
    refine fresh_append_stored h.fresh fun hsome v g hv => ?_
    obtain ⟨n, hn⟩ := Option.isSome_iff_exists.mp hsome
    obtain ⟨heq, -, hlt, -⟩ := hnumber.generated n hn
    rw [heq]
    exact hlt v g hv
  · rcases hmem hv with hold | rfl
    · exact h.bounded v g hold
    · exact hnumber.bounded
  · obtain ⟨hlast, hmin, hnext, habove⟩ := h.window win hwin
    refine ⟨hlast, hmin, hnext, fun v g hv => ?_⟩
    rcases hmem hv with hold | rfl
    · exact habove v g hold
    · cases number with
      | none => exact absurd hwin (by rw [hnumber.written rfl]; exact Option.not_mem_none _)
      | some n =>
        obtain ⟨heq, -, -, last, hwindow⟩ := hnumber.generated n rfl
        rw [hwindow] at hwin
        obtain rfl := Option.some.inj hwin
        rw [heq]
        exact Int.cast_lt.mpr (Int.lt_succ _)
  · rcases List.mem_append.mp hv with hold | hnew
    · obtain ⟨t, ht, hvalue⟩ := h.prepared v g hold
      exact ⟨t, List.mem_append_left _ ht, hvalue⟩
    · have heq := List.mem_singleton.mp hnew
      rw [Event.stored.injEq] at heq
      exact ⟨text, List.mem_append_right _ (List.mem_singleton.mpr rfl), heq.2.1.symm⟩

variable {given : String}

theorem endRow_sound (h : Sound column rows history w)
    (hnumber : Numbered column rows history w number text) (hburn : w.ins.burnReservation)
    (hcounter : w.counters 0 ≠ none) {ending : Ending} (hending : ending.AssignsNothing) :
    (endRow [column] [(given, number)] [text] w ending).Sound column rows history := by
  have hlast : ([(given, number)].filterMap Prod.snd).getLast? = number := by
    cases number <;> rfl
  have hgiven := giveBack_sound h hnumber
  have hsettled : Settled { w with ins := w.ins.giveBack number } := by
    obtain ⟨window, heq⟩ := hgiven.2
    rw [heq]
    exact ⟨.inr hburn, .inl hcounter⟩
  cases ending with
  | failsKeys => exact h
  | failsCheck =>
    exact ⟨h.fresh, h.bounded, h.base, h.chained, h.counted, h.window, h.nextBatch, h.prepared,
      h.updates⟩
  | skipped waited =>
    cases waited with
    | true => exact ⟨h, .inr hburn, .inl hcounter⟩
    | false =>
      simp only [endRow, hlast]
      exact ⟨hgiven.1, hsettled⟩
  | updates row assigned waited =>
    cases waited with
    | true => exact ⟨h.withPending hending, .inr hburn, .inl hcounter⟩
    | false =>
      simp only [endRow, hlast]
      exact ⟨hgiven.1.withPending hending, hsettled.1, .inl hcounter⟩
  | updatesEarlier row assigned =>
    have hsame : ∀ ins : Insert, ({ ins with
        prepared := ins.prepared.modify row (assign assigned)
        events := ins.events ++ assignedEvents [column] assigned } : Insert) = ins := by
      intro ins
      have hid : assign assigned = id := funext fun cells => assign_eq_self hending cells
      rw [hid, List.modify_id, assignedEvents_eq_nil hending, List.append_nil]
    simp only [endRow, hlast, hsame]
    exact ⟨hgiven.1, hsettled⟩
  | stored => exact ⟨h.withStored hnumber, .inr hburn, .inl hcounter⟩

theorem mem_of_mem_drawn {v : ℚ} {g : Bool} (h : .stored 0 v g ∈ l ++ [.drawn 0 n]) :
    .stored 0 v g ∈ l := by
  rcases List.mem_append.mp h with hold | hnew
  · exact hold
  · cases List.mem_singleton.mp hnew

theorem Sound.withDrawn (h : Sound column rows history w)
    (hlt : ∀ (v : ℚ) g, .stored 0 v g ∈ history ++ w.ins.events → v < n) :
    Sound column rows history { w with ins := { w.ins with
      events := w.ins.events ++ [.drawn 0 n] } } := by
  have happend : history ++ (w.ins.events ++ [.drawn 0 n]) =
      history ++ w.ins.events ++ [.drawn 0 n] :=
    (List.append_assoc ..).symm
  refine ⟨?_, fun v g hv => ?_, h.base, h.chained, h.counted, fun win hwin => ?_, h.nextBatch,
    fun v g hv => h.prepared v g (mem_of_mem_drawn hv), h.updates⟩
  · dsimp only
    rw [happend]
    exact fresh_append_drawn h.fresh hlt
  · dsimp only at hv
    rw [happend] at hv
    exact h.bounded v g (mem_of_mem_drawn hv)
  · obtain ⟨hlast, hmin, hnext, habove⟩ := h.window win hwin
    refine ⟨hlast, hmin, hnext, fun v g hv => ?_⟩
    dsimp only at hv
    rw [happend] at hv
    exact habove v g (mem_of_mem_drawn hv)

theorem coercedRow_written_sound (h : Sound column rows history w) {v : Int}
    (hfrom : fromChars text = some (v, rest)) (hvalue : column.value text = v) {fate : Fate}
    (hfate : fate.AssignsNothing) :
    (coercedRow [column] rows [(given, none)] [text] w fate).Sound column rows history := by
  have hclosed : Sound column rows history { w with ins := { w.ins with window := none } } :=
    ⟨h.fresh, h.bounded, h.base, h.chained, h.counted,
      fun _ hwin => absurd hwin (Option.not_mem_none _), h.nextBatch, h.prepared, h.updates⟩
  obtain ⟨hsound, hle, hcounter, takes, hins⟩ := takeWritten_sound hclosed rfl hfrom
  cases fate with
  | passes ending =>
    refine endRow_sound ?_ ⟨fun _ hn => absurd hn (Option.not_mem_none _), fun _ => ?_, ?_⟩
      rfl ?_ hfate
    · exact ⟨hsound.fresh, hsound.bounded, hsound.base, hsound.chained, hsound.counted,
        hsound.window, hsound.nextBatch, hsound.prepared, hsound.updates⟩
    · exact congrArg Insert.window hins
    · rw [hvalue]
      exact Int.cast_le.mpr hle
    · exact hcounter ▸ Option.some_ne_none _
  | _ => exact hsound

theorem coercedRow_generated_sound (h : Sound column rows history w)
    (hvalue : column.value (toString n) = n) (hn : InInt64 n)
    (hle : n ≤ counterOf rows w.counters 0)
    (hcounter : w.counters 0 = some (counterOf rows w.counters 0))
    (hlt : ∀ (v : ℚ) g, .stored 0 v g ∈ history ++ w.ins.events → v < n)
    (hwindow : ∃ last, w.ins.window = some { next := n + 1, last := last }) {fate : Fate}
    (hfate : fate.AssignsNothing) :
    (coercedRow [column] rows [(given, some n)] [toString n] w fate).Sound
      column rows history := by
  have hsame : takeAllWritten rows 0 [toString n] w = w :=
    takeWritten_eq_self (fromChars_toString hn) hcounter hle
  have hopen : [(given, some n)].any (fun p : String × Option Int => p.2.isNone) = false := rfl
  cases fate with
  | passes ending =>
    simp only [coercedRow, hopen, Bool.false_eq_true, if_false, hsame]
    refine endRow_sound ?_ ⟨fun m hm => ?_, fun hnone => (by cases hnone), ?_⟩ rfl ?_ hfate
    · exact ⟨h.fresh, h.bounded, h.base, h.chained, h.counted, h.window, h.nextBatch,
        h.prepared, h.updates⟩
    · obtain rfl := Option.some.inj hm
      exact ⟨hvalue, hn.1, hlt, hwindow⟩
    · rw [hvalue]
      exact Int.cast_le.mpr hle
    · exact hcounter ▸ Option.some_ne_none _
  | _ =>
    simp only [coercedRow, hopen, Bool.false_eq_true, if_false, hsame]
    exact h

theorem mapM_coerce :
    ([column].zip [(given, number)]).mapM (fun (c, text, _) => c.coerce text) =
      (column.coerce given).map ([·]) := by
  cases hgiven : column.coerce given <;> simp [hgiven]

/-- A row of a statement, where its number has room or is read as what it is. -/
theorem insertRow_sound (h : Sound column rows history w) (hcolumn : column.Integer)
    (hsize : 0 < w.ins.size) {fate : Fate} (hroom : generates text → Room rows w)
    (hread : generates text = false → ∀ t, column.coerce text = some t →
      ∃ v rest, fromChars t = some (v, rest) ∧ column.value t = v) (hfate : fate.AssignsNothing) :
    (insertRow [column] rows w [text] fate).Sound column rows history := by
  rw [insertRow]
  split_ifs with hrefused
  · exact h
  cases hgen : generates text with
  | true =>
    obtain ⟨n, w', hdraw, hsound, hlt, hn, hle, hcounter, hwindow, _, _, _, _, hins⟩ :=
      draw_sound h hsize (hroom hgen)
    have hevents : w'.ins.events = w.ins.events := by
      rw [hins]
    rw [← hevents] at hlt
    have hnumbered : numberCells rows 0 [text] w = some ([(toString n, some n)], w') := by
      rw [numberCells, if_pos hgen, hdraw]
      rfl
    have hdrawn := hsound.withDrawn hlt
    have hlt' : ∀ (v : ℚ) g,
        .stored 0 v g ∈ history ++ (w'.ins.events ++ [.drawn 0 n]) → v < n := by
      intro v g hv
      rw [← List.append_assoc] at hv
      exact hlt v g (mem_of_mem_drawn hv)
    simp only [hnumbered, numberedRow, mapM_coerce]
    split_ifs with hfails
    · exact hdrawn
    · cases hcoerce : column.coerce (toString n) with
      | none =>
        exact ⟨hdrawn.fresh, hdrawn.bounded, hdrawn.base, hdrawn.chained, hdrawn.counted,
          hdrawn.window, hdrawn.nextBatch, hdrawn.prepared, hdrawn.updates⟩
      | some t =>
        obtain rfl := hcolumn.keeps n t hcoerce
        apply coercedRow_generated_sound
        · exact ⟨hdrawn.fresh, hdrawn.bounded, hdrawn.base, hdrawn.chained, hdrawn.counted,
            hdrawn.window, hdrawn.nextBatch, hdrawn.prepared, hdrawn.updates⟩
        · exact hcolumn.value n
        · exact hn
        · exact hle
        · exact hcounter
        · exact hlt'
        · exact hwindow
        · exact hfate
  | false =>
    have hnumbered : numberCells rows 0 [text] w = some ([(text, none)], w) := by
      rw [numberCells, if_neg (by rw [hgen]; exact Bool.false_ne_true)]
      rfl
    have hnone : ([(text, none)].mapIdx
        (fun i (p : String × Option Int) => p.2.map (Event.drawn i))).reduceOption = [] := rfl
    simp only [hnumbered, numberedRow, mapM_coerce, hnone, List.append_nil]
    split_ifs with hfails
    · exact h
    · cases hcoerce : column.coerce text with
      | none =>
        exact ⟨h.fresh, h.bounded, h.base, h.chained, h.counted, h.window, h.nextBatch,
          h.prepared, h.updates⟩
      | some t =>
        obtain ⟨v, rest, hfrom, hvalue⟩ := hread hgen t hcoerce
        refine coercedRow_written_sound ?_ hfrom hvalue hfate
        exact ⟨h.fresh, h.bounded, h.base, h.chained, h.counted, h.window, h.nextBatch,
          h.prepared, h.updates⟩

end

/-! ### Runs -/

/-- What holds of a table with one integer AUTO_INCREMENT column. -/
structure Good (column : Column) (s : State) : Prop where
  columns : s.columns = [column]
  overflowed : s.overflowed = false
  fresh : Fresh s.history
  bounded : s.insert = none →
    ∀ (v : ℚ) g, .stored 0 v g ∈ s.history → v ≤ counterOf s.rows s.counters 0
  inserting : ∀ ins ∈ s.insert,
    Sound column s.rows s.history { counters := s.counters, ins := ins } ∧
      Settled { counters := s.counters, ins := ins }

theorem Good.events_fresh {column : Column} {s : State} (h : Good column s) : Fresh s.events := by
  rw [State.events]
  cases hinsert : s.insert with
  | none =>
    rw [Option.elim_none, List.append_nil]
    exact h.fresh
  | some ins => exact (h.inserting ins hinsert).1.fresh

section

variable {column : Column} {s : State}

theorem beginInsert_good (h : Good column s) (hidle : s.insert = none) (size : Nat)
    (fromSelect : Bool) : Good column { s with insert := some (beginInsert size fromSelect) } := by
  refine ⟨h.columns, h.overflowed, h.fresh, nofun, fun ins hins => ?_⟩
  obtain rfl := Option.some.inj hins
  have hempty : s.history ++ (beginInsert size fromSelect).events = s.history :=
    List.append_nil _
  refine ⟨⟨?_, fun v g hv => ?_, nofun, .nil _,
    fun hne => absurd rfl hne, fun _ hwin => absurd hwin (Option.not_mem_none _), le_rfl,
    nofun, nofun⟩,
    .inl rfl, .inr ⟨rfl, rfl, rfl⟩⟩
  · rw [hempty]
    exact h.fresh
  · rw [hempty] at hv
    exact h.bounded hidle v g hv

theorem failInsert_good (h : Good column s) {w : Work}
    (hsound : Sound column s.rows s.history w) : Good column (failInsert s w) := by
  refine ⟨h.columns, h.overflowed, ?_, fun _ v g hv => ?_,
    fun _ hins => absurd hins (Option.not_mem_none _)⟩
  · exact hsound.fresh.sublist (List.filter_sublist.append_left _)
  · have hold : .stored 0 v g ∈ s.history := by
      rcases List.mem_append.mp hv with hold | hnew
      · exact hold
      · cases (List.mem_filter.mp hnew).2
    have hbounded := hsound.bounded v g (List.mem_append_left _ hold)
    simp only [failInsert, counterOf]
    rcases @undo_zero w.ins.burnReservation w.ins.takes w.counters
      hsound.chained.column with hstay | ⟨take, htake, hback⟩
    · rw [hstay]
      exact hbounded
    · rw [hback, Option.getD_some]
      exact hsound.base v g hold take htake

theorem foldl_modify_eq_self {updates : List (Nat × Assigned)}
    (h : ∀ u ∈ updates, ∀ a ∈ u.2, a = none) (rows : List (List String)) :
    updates.foldl (fun rows (row, assigned) => rows.modify row (assign assigned)) rows = rows := by
  induction updates generalizing rows with
  | nil => rfl
  | cons u updates ih =>
    obtain ⟨hu, hupdates⟩ := List.forall_mem_cons.mp h
    have hid : assign u.2 = id := funext fun cells => assign_eq_self hu cells
    rw [List.foldl_cons]
    dsimp only
    rw [hid, List.modify_id]
    exact ih hupdates rows

theorem counterOf_append {ins : Insert} (h : Settled { counters := s.counters, ins := ins }) :
    counterOf (s.rows ++ ins.prepared) s.counters 0 = counterOf s.rows s.counters 0 := by
  rcases h.started with hcounter | ⟨-, hprepared, -⟩
  · obtain ⟨c, hc⟩ := Option.ne_none_iff_exists'.mp hcounter
    dsimp only at hc
    rw [counterOf, counterOf, hc, Option.getD_some, Option.getD_some]
  · dsimp only at hprepared
    rw [hprepared, List.append_nil]

theorem undo_settled {ins : Insert}
    (hsound : Sound column s.rows s.history { counters := s.counters, ins := ins })
    (hsettled : Settled { counters := s.counters, ins := ins }) (hc : s.counters 0 = some c) :
    undo ins.burnReservation ins.takes s.counters 0 = some c ∨
      ∃ take ∈ ins.unwound,
        undo ins.burnReservation ins.takes s.counters 0 = some take.before := by
  have htop : counterOf s.rows s.counters 0 = c := by
    rw [counterOf, hc, Option.getD_some]
  rcases hsettled.burnt with hnil | hburn
  · dsimp only at hnil
    rw [hnil]
    exact .inl hc
  · dsimp only at hburn
    rw [hburn]
    exact undo_burn hc (htop ▸ hsound.chained)

theorem finishInsert_good (h : Good column s) {ins : Insert} (hins : s.insert = some ins)
    {failing : Option Nat} (hfailing : ∀ k ∈ failing, k < ins.pendingUpdates.length)
    (hfits : Fits column s (.finish failing)) : Good column (finishInsert s ins failing) := by
  obtain ⟨hsound, hsettled⟩ := h.inserting ins hins
  have hupdates : ∀ u ∈ failing.elim ins.pendingUpdates ins.pendingUpdates.take,
      ∀ a ∈ u.2, a = none := by
    intro u hu
    refine hsound.updates u ?_
    cases failing with
    | none => exact hu
    | some k => exact List.mem_of_mem_take hu
  have hnone : (failing.elim ins.pendingUpdates ins.pendingUpdates.take).flatMap
      (fun u => assignedEvents s.columns u.2) = [] :=
    List.flatMap_eq_nil_iff.mpr fun u hu => assignedEvents_eq_nil (hupdates u hu)
  have hhistory : (finishInsert s ins failing).history = s.history ++ ins.events := by
    simp only [finishInsert, hnone, List.append_nil]
  refine ⟨h.columns, h.overflowed, ?_, fun _ v g hv => ?_,
    fun _ hins => absurd hins (Option.not_mem_none _)⟩
  · rw [hhistory]
    exact hsound.fresh
  · rw [hhistory] at hv
    have hbounded := hsound.bounded v g hv
    simp only [finishInsert, foldl_modify_eq_self hupdates]
    cases hfail : failing with
    | none =>
      simp only [Option.isSome_none, Bool.false_eq_true, if_false]
      rw [counterOf_append hsettled]
      exact hbounded
    | some k =>
      simp only [Option.isSome_some, if_true]
      have hpending : ins.pendingUpdates ≠ [] := by
        intro hnil
        have hk := hfailing k hfail
        rw [hnil] at hk
        exact absurd hk (Nat.not_lt_zero _)
      obtain ⟨c, hc⟩ : ∃ c, s.counters 0 = some c :=
        Option.ne_none_iff_exists'.mp
          (hsettled.started.resolve_right fun hall => hpending hall.2.2)
      have htop : counterOf s.rows s.counters 0 = c := by
        rw [counterOf, hc, Option.getD_some]
      rcases undo_settled hsound hsettled hc with hstay | ⟨take, htake, hback⟩
      · rw [counterOf, hstay, Option.getD_some, ← htop]
        exact hbounded
      · rw [counterOf, hback, Option.getD_some]
        rcases List.mem_append.mp hv with hold | hnew
        · exact hsound.base v g hold take (List.takeWhile_subset _ htake)
        · obtain ⟨text, htext, rfl⟩ := hsound.prepared v g hnew
          exact hfits (by rw [hfail]; exact Option.some_ne_none k) ins hins take htake text htext

theorem step_good (hcolumn : column.Integer) (h : Good column s) {a : Action} {s' : State}
    (hfits : Fits column s a) (hstep : step s a = some s') : Good column s' := by
  obtain ⟨columns, rows, counters, insert, history, overflowed⟩ := s
  obtain rfl : columns = [column] := h.columns
  obtain rfl : overflowed = false := h.overflowed
  cases a with
  | insert size fromSelect =>
    cases hins : insert with
    | none =>
      simp only [step, Bool.false_eq_true, if_false, hins] at hstep
      obtain rfl := Option.some.inj hstep
      exact beginInsert_good h hins size fromSelect
    | some ins => simp [step, hins] at hstep
  | row cells fate =>
    cases hins : insert with
    | none => simp [step, hins] at hstep
    | some ins =>
      simp only [step, Bool.false_eq_true, if_false, hins] at hstep
      split_ifs at hstep with hguard
      obtain ⟨text, rfl⟩ := List.length_eq_one_iff.mp hguard.2
      obtain ⟨hroom, hread, hfate⟩ := hfits ins hins text rfl
      obtain ⟨hsound, -⟩ := h.inserting ins hins
      have hrow := insertRow_sound hsound hcolumn (by dsimp only; omega) hroom hread hfate
      cases hresult : insertRow [column] rows { counters := counters, ins := ins } [text]
          fate with
      | overflows =>
        rw [hresult] at hrow
        exact hrow.elim
      | fails w =>
        rw [hresult] at hrow hstep
        obtain rfl := Option.some.inj hstep
        exact failInsert_good h hrow
      | goesOn w =>
        rw [hresult] at hrow hstep
        obtain rfl := Option.some.inj hstep
        refine ⟨rfl, rfl, h.fresh, nofun, fun ins' hins' => ?_⟩
        obtain rfl := Option.some.inj hins'
        exact hrow
  | finish failing =>
    cases hins : insert with
    | none => simp [step, hins] at hstep
    | some ins =>
      simp only [step, Bool.false_eq_true, if_false, hins] at hstep
      split_ifs at hstep with hguard
      obtain rfl := Option.some.inj hstep
      exact finishInsert_good h hins hguard.2 hfits
  | throws =>
    cases hins : insert with
    | none => simp [step, hins] at hstep
    | some ins =>
      simp only [step, Bool.false_eq_true, if_false, hins] at hstep
      split_ifs at hstep
      obtain rfl := Option.some.inj hstep
      exact failInsert_good h (h.inserting ins hins).1

/-- Along every run each of whose steps fits, no sum leaves `std::int64_t` and the numbers that
are generated are fresh. -/
theorem reaches_fresh (hcolumn : column.Integer) {s₀ : State} (hs₀ : Good column s₀)
    (h : Transition.Reaches step (Fits column) s₀ s) : s.overflowed = false ∧ Fresh s.events := by
  have hgood : Good column s :=
    h.invariant (fun s a s' hs hfits hstep => step_good hcolumn hs hfits hstep) hs₀
  exact ⟨hgood.overflowed, hgood.events_fresh⟩

theorem created_good {start : Option Int} : Good column (created [column] fun _ => start) :=
  ⟨rfl, rfl, .nil, nofun, fun _ hins => absurd hins (Option.not_mem_none _)⟩

end

/-! ### The ends of the range -/

/-- An integer column of a range. -/
def integerColumn (low high : Int) : Column where
  coerce text := (leadingNumber text).bind fun (n, rest) =>
    if rest = [] ∧ low ≤ n ∧ n ≤ high then some (toString n) else none
  value text := ((leadingNumber text).elim 0 Prod.fst : Int)

theorem integerColumn_integer (low high : Int) : (integerColumn low high).Integer where
  keeps n text h := by
    simp only [integerColumn, leadingNumber_toString, Option.bind_some] at h
    split_ifs at h
    exact (Option.some.inj h).symm
  value n := by
    simp only [integerColumn, leadingNumber_toString, Option.elim_some]

instance (rows : List (List String)) (w : Work) : Decidable (Room rows w) :=
  inferInstanceAs (Decidable (if w.ins.exhausted then _ else _))

def bigintTable : State :=
  created [integerColumn int64Min int64Max] fun _ => none

/-- `INSERT INTO t VALUES (100), (NULL)`. -/
theorem bigintTable_fresh :
    ∃ s, Transition.exec step bigintTable [.insert 2 false, .row ["100"] (.passes .stored),
        .row ["NULL"] (.passes .stored), .finish none] = some s ∧
      s.history = [.stored 0 100 false, .drawn 0 101, .stored 0 101 true] ∧
      s.overflowed = false ∧ Fresh s.events := by
  have hexec : (Transition.exec step bigintTable [.insert 2 false,
      .row ["100"] (.passes .stored), .row ["NULL"] (.passes .stored), .finish none]).map
      State.history = some [.stored 0 100 false, .drawn 0 101, .stored 0 101 true] := by
    decide
  have hroom : (Transition.exec step bigintTable [.insert 2 false,
      .row ["100"] (.passes .stored)]).map (fun s => s.insert.all fun ins =>
        decide (Room s.rows { counters := s.counters, ins := ins })) = some true := by
    decide
  obtain ⟨s, hs, hhistory⟩ := Option.map_eq_some_iff.mp hexec
  have hok : Transition.execOk step (Fits (integerColumn int64Min int64Max)) bigintTable
      [.insert 2 false, .row ["100"] (.passes .stored), .row ["NULL"] (.passes .stored),
        .finish none] := by
    refine ⟨trivial, fun s₁ h₁ => ⟨fun ins _ text htext => ?_, fun s₂ h₂ =>
      ⟨fun ins hins text htext => ?_, fun _ _ => ⟨fun hne => absurd rfl hne,
        fun _ _ => trivial⟩⟩⟩⟩
    · obtain rfl := List.singleton_inj.mp htext
      refine ⟨fun hgen => absurd hgen (by decide), fun _ t ht => ?_, trivial⟩
      obtain rfl : t = "100" := by
        have hcoerce : (integerColumn int64Min int64Max).coerce "100" = some "100" := by
          decide
        rw [hcoerce] at ht
        exact (Option.some.inj ht).symm
      exact ⟨100, [], by decide, by decide⟩
    · obtain rfl := List.singleton_inj.mp htext
      refine ⟨fun _ => ?_, fun hgen => absurd hgen (by decide), trivial⟩
      simp only [Transition.exec, h₁, Option.bind_some, h₂, Option.map_some,
        Option.some.injEq] at hroom
      rw [hins, Option.all_some] at hroom
      exact of_decide_eq_true hroom
  exact ⟨s, hs, hhistory, reaches_fresh (integerColumn_integer _ _) created_good
    (Transition.Reaches.of_exec _ hok hs)⟩

/-- The largest number leaves none for the next row, and a number beyond `std::int64_t` does not
move the counter. -/
theorem ends_of_range :
    (¬ ∀ s, Transition.Reaches step Transition.anyStep bigintTable s → s.overflowed = false) ∧
    ¬ ∀ s, Transition.Reaches step Transition.anyStep
      (created [integerColumn 0 (2 ^ 64 - 1)] fun _ => none) s → Fresh s.events := by
  constructor
  · intro h
    have hexec : (Transition.exec step bigintTable
        [.insert 1 false, .row ["9223372036854775807"] (.passes .stored), .finish none,
          .insert 1 false, .row ["NULL"] (.passes .stored)]).map State.overflowed = some true := by
      decide +kernel
    obtain ⟨s, hs, hoverflowed⟩ := Option.map_eq_some_iff.mp hexec
    have hreached := h s (Transition.Reaches.of_exec _ (Transition.execOk_anyStep ..) hs)
    rw [hoverflowed] at hreached
    cases hreached
  · intro h
    have hexec : (Transition.exec step (created [integerColumn 0 (2 ^ 64 - 1)] fun _ => none)
        [.insert 1 false, .row ["9223372036854775808"] (.passes .stored), .finish none,
          .insert 1 false, .row ["NULL"] (.passes .stored)]).map State.events =
        some [.stored 0 9223372036854775808 false, .drawn 0 1, .stored 0 1 true] := by
      decide +kernel
    obtain ⟨s, hs, hevents⟩ := Option.map_eq_some_iff.mp hexec
    have hfresh := h s (Transition.Reaches.of_exec _ (Transition.execOk_anyStep ..) hs)
    rw [hevents] at hfresh
    have hlt := (List.pairwise_cons.mp hfresh).1 (.drawn 0 1) (by simp) rfl
    exact absurd hlt (by decide +kernel)

end RusqlEngine.AutoIncrement

import Mathlib.Data.List.Infix
import Mathlib.Order.Nat

/-!
# Scanners

A scanner reads a text turn by turn and marks some of its positions. What it marks before a
given element need not wait for the text behind that element; a scanner that forgets what it has
read at a mark finds the same marks when it starts anew behind it. A text that arrives in pieces
is then cut alike however it is divided.
-/

namespace Scanner

/-- What a turn has read: the state after it, the text it leaves, and whether it began at a
mark. -/
structure Turn (σ α : Type*) where
  state : σ
  rest : List α
  marked : Bool

variable {k : ℕ}

section

variable {σ α : Type*} (turn : σ → List α → Turn σ α)

def marksLoop : ℕ → σ → List α → List ℕ
  | 0, _, _ => []
  | _ + 1, _, [] => []
  | fuel + 1, s, c :: cs =>
    let t := turn s (c :: cs)
    (if t.marked then [0] else []) ++
      (marksLoop fuel t.state t.rest).map (· + (cs.length + 1 - t.rest.length))

def marks (s : σ) (cs : List α) : List ℕ :=
  marksLoop turn cs.length s cs

def Consumes : Prop :=
  ∀ s c cs, (turn s (c :: cs)).rest <:+ cs

variable {turn} {s s' : σ} {c : α} {cs : List α}

theorem Consumes.length_le (h : Consumes turn) (s : σ) (c : α) (cs : List α) :
    (turn s (c :: cs)).rest.length ≤ cs.length :=
  (h s c cs).length_le

theorem Consumes.drop_eq (h : Consumes turn) (s : σ) (c : α) (cs : List α) :
    (c :: cs).drop (cs.length + 1 - (turn s (c :: cs)).rest.length) = (turn s (c :: cs)).rest := by
  rw [← List.length_cons (a := c)]
  exact (List.suffix_iff_eq_drop.mp ((h s c cs).trans (List.suffix_cons c cs))).symm

theorem marksLoop_of_le (h : Consumes turn) : ∀ {n m : ℕ} {s : σ} {cs : List α},
    cs.length ≤ n → cs.length ≤ m → marksLoop turn n s cs = marksLoop turn m s cs
  | 0, 0, _, _, _, _ | 0, _ + 1, _, [], _, _ | _ + 1, 0, _, [], _, _ | _ + 1, _ + 1, _, [], _, _ =>
    rfl
  | n + 1, m + 1, s, c :: cs, hn, hm => by
      have hrest := h.length_le s c cs
      have hn' := hrest.trans (Nat.le_of_succ_le_succ hn)
      have hm' := hrest.trans (Nat.le_of_succ_le_succ hm)
      rw [marksLoop, marksLoop]
      simp only [marksLoop_of_le h hn' hm']

theorem marks_cons (h : Consumes turn) : marks turn s (c :: cs) =
    (if (turn s (c :: cs)).marked then [0] else []) ++
      (marks turn (turn s (c :: cs)).state (turn s (c :: cs)).rest).map
        (· + (cs.length + 1 - (turn s (c :: cs)).rest.length)) := by
  rw [marks, List.length_cons, marksLoop]
  simp only [marks, marksLoop_of_le h (h.length_le s c cs) le_rfl]

theorem induction_of_consumes (h : Consumes turn) {P : σ → List α → Prop} (nil : ∀ s, P s [])
    (cons : ∀ s c cs, P (turn s (c :: cs)).state (turn s (c :: cs)).rest → P s (c :: cs))
    (s : σ) (cs : List α) : P s cs := by
  induction hn : cs.length using Nat.strong_induction_on generalizing s cs with
  | _ n ih =>
    cases cs with
    | nil => exact nil s
    | cons c cs =>
      refine cons s c cs (ih _ ?_ _ _ rfl)
      rw [← hn]
      exact Nat.lt_succ_of_le (h.length_le s c cs)

theorem lt_length_of_mem_marks (h : Consumes turn) : ∀ k ∈ marks turn s cs, k < cs.length := by
  induction s, cs using induction_of_consumes h with
  | nil s => intro k hk; cases hk
  | cons s c cs ih =>
    intro k hk
    have hrest := h.length_le s c cs
    rw [marks_cons h, List.mem_append, List.mem_map] at hk
    rw [List.length_cons]
    rcases hk with hk | ⟨j, hj, rfl⟩
    · split at hk
      · obtain rfl : k = 0 := by simpa using hk
        exact Nat.succ_pos _
      · cases hk
    · have := ih j hj
      omega

theorem pairwise_marks (h : Consumes turn) : (marks turn s cs).Pairwise (· < ·) := by
  induction s, cs using induction_of_consumes h with
  | nil s => exact List.Pairwise.nil
  | cons s c cs ih =>
    have hrest := h.length_le s c cs
    have htail : ((marks turn (turn s (c :: cs)).state (turn s (c :: cs)).rest).map
        (· + (cs.length + 1 - (turn s (c :: cs)).rest.length))).Pairwise (· < ·) :=
      ih.map _ fun _ _ hlt => Nat.add_lt_add_right hlt _
    rw [marks_cons h]
    split
    · refine List.pairwise_cons.mpr ⟨fun k hk => ?_, htail⟩
      obtain ⟨j, -, rfl⟩ := List.mem_map.mp hk
      omega
    · exact htail

/-- States that the scanner cannot tell apart. -/
structure Alike (turn : σ → List α → Turn σ α) (R : σ → σ → Prop) : Prop where
  rest : ∀ {s s' cs}, R s s' → (turn s cs).rest = (turn s' cs).rest
  marked : ∀ {s s' cs}, R s s' → (turn s cs).marked = (turn s' cs).marked
  state : ∀ {s s' cs}, R s s' → R (turn s cs).state (turn s' cs).state

theorem Alike.marks_eq {R : σ → σ → Prop} (hR : Alike turn R) (h : Consumes turn)
    (hs : R s s') : marks turn s cs = marks turn s' cs := by
  induction s, cs using induction_of_consumes h generalizing s' with
  | nil s => rfl
  | cons s c cs ih =>
    rw [marks_cons h, marks_cons h, hR.marked hs, ih (hR.state hs), hR.rest hs]

/-- What a turn makes of the text `v` before the element `a` does not depend on what follows: the
text is empty or partly left, or nothing is marked up to `a`. -/
def SteadyAt (turn : σ → List α → Turn σ α) (a : α) (s : σ) (v : List α) : Prop :=
  (v = [] ∧ ∃ m, ∀ q, (turn s (a :: q)).marked = m) ∨
    (∃ s' v' m, v'.length < v.length ∧ ∀ q, turn s (v ++ a :: q) = ⟨s', v' ++ a :: q, m⟩) ∨
    ∀ q, ∀ k ∈ marks turn s (v ++ a :: q), v.length < k

def Steady (turn : σ → List α → Turn σ α) (a : α) : Prop :=
  ∀ s v, SteadyAt turn a s v

/-- Of the text `v` before `a` the reader leaves the same part whatever follows, or else it reads
past `a`. -/
def StopsAt (a : α) (f : List α → List α) (v : List α) : Prop :=
  (∃ v', v' <:+ v ∧ ∀ q, f (v ++ a :: q) = v' ++ a :: q) ∨ ∀ q, f (v ++ a :: q) <:+ q

def StopsAlike (a : α) (f : List α → List α) : Prop :=
  ∀ v, StopsAt a f v

variable {a : α} {f : List α → List α} {v : List α}

theorem StopsAt.of_suffix {v' : List α} (hsub : v' <:+ v)
    (h : ∀ q, f (v ++ a :: q) = v' ++ a :: q) : StopsAt a f v :=
  .inl ⟨v', hsub, h⟩

theorem StopsAt.of_eq {g : List α → List α} {w : List α} (hg : StopsAt a g w) (hsub : w <:+ v)
    (h : ∀ q, f (v ++ a :: q) = g (w ++ a :: q)) : StopsAt a f v := by
  rcases hg with ⟨v', hsub', hv'⟩ | hpast
  · exact .of_suffix (hsub'.trans hsub) fun q => (h q).trans (hv' q)
  · exact .inr fun q => (h q).symm ▸ hpast q

theorem stopsAlike_dropWhile (a : α) (p : α → Bool) : StopsAlike a (List.dropWhile p) := by
  intro v
  by_cases hv : v.dropWhile p = []
  · have hdrop : ∀ q, (v ++ a :: q).dropWhile p = (a :: q).dropWhile p := by
      intro q
      rw [List.dropWhile_append, hv]
      rfl
    cases hp : p a with
    | false =>
      refine .of_suffix List.nil_suffix fun q => ?_
      rw [hdrop, List.dropWhile_cons_of_neg (by simp [hp])]
      rfl
    | true =>
      refine .inr fun q => ?_
      rw [hdrop, List.dropWhile_cons_of_pos hp]
      exact List.dropWhile_suffix p
  · refine .of_suffix (List.dropWhile_suffix p) fun q => ?_
    rw [List.dropWhile_append, if_neg (by simpa using hv)]

theorem StopsAlike.tail (h : StopsAlike a f) : StopsAlike a fun l => (f l).tail := by
  intro v
  rcases h v with ⟨v', hsub, hv'⟩ | hpast
  · cases v' with
    | nil => exact .inr fun q => by simp [hv' q]
    | cons c v' =>
      exact .of_suffix ((List.suffix_cons c v').trans hsub) fun q => by simp [hv' q]
  · exact .inr fun q => (List.tail_suffix _).trans (hpast q)

theorem lt_of_mem_marks (h : Consumes turn) {q : List α} (hrest : (turn s (v ++ a :: q)).rest <:+ q)
    (hmark : (turn s (v ++ a :: q)).marked = false) :
    ∀ k ∈ marks turn s (v ++ a :: q), v.length < k := by
  intro k hk
  obtain ⟨c, cs, hcs⟩ : ∃ c cs, v ++ a :: q = c :: cs :=
    List.exists_cons_of_ne_nil (List.append_ne_nil_of_right_ne_nil v (List.cons_ne_nil a q))
  have hlen : cs.length + 1 = v.length + (q.length + 1) := by
    rw [← List.length_cons (a := c), ← hcs, List.length_append, List.length_cons]
  rw [hcs] at hrest hmark hk
  rw [marks_cons h, hmark, if_neg Bool.false_ne_true, List.nil_append, List.mem_map] at hk
  obtain ⟨j, -, rfl⟩ := hk
  have := hrest.length_le
  omega

theorem SteadyAt.of_turn {v' : List α} {m : Bool} (hsub : v' <:+ v)
    (hturn : ∀ q, turn s (c :: (v ++ a :: q)) = ⟨s', v' ++ a :: q, m⟩) :
    SteadyAt turn a s (c :: v) :=
  .inr (.inl ⟨s', v', m, Nat.lt_succ_of_le hsub.length_le, hturn⟩)

theorem SteadyAt.of_reader (h : Consumes turn) (hf : StopsAt a f v)
    (hturn : ∀ q, turn s (c :: (v ++ a :: q)) = ⟨s', f (v ++ a :: q), false⟩) :
    SteadyAt turn a s (c :: v) := by
  rcases hf with ⟨v', hsub, hv'⟩ | hpast
  · exact .of_turn hsub fun q => by rw [hturn, hv']
  · refine .inr (.inr fun q => lt_of_mem_marks h ?_ ?_)
    · rw [List.cons_append, hturn]
      exact hpast q
    · rw [List.cons_append, hturn]

theorem filter_map_add_of_lt {l : List ℕ} {n d : ℕ} (hd : n < d) :
    (l.map (· + d)).filter (· ≤ n) = [] := by
  rw [List.filter_eq_nil_iff]
  intro k hk
  obtain ⟨j, -, rfl⟩ := List.mem_map.mp hk
  simp only [decide_eq_true_eq]
  omega

theorem filter_map_add (l : List ℕ) (n d : ℕ) :
    (l.map (· + d)).filter (· ≤ n + d) = (l.filter (· ≤ n)).map (· + d) := by
  rw [List.filter_map]
  congr 1
  refine List.filter_congr fun k _ => ?_
  simp

/-- Marks stand at the element `a` only. -/
def MarksAt (turn : σ → List α → Turn σ α) (a : α) : Prop :=
  ∀ {s c cs}, (turn s (c :: cs)).marked → c = a

theorem MarksAt.getElem? (hat : MarksAt turn a) (h : Consumes turn) :
    ∀ k ∈ marks turn s cs, cs[k]? = some a := by
  induction s, cs using induction_of_consumes h with
  | nil s => intro k hk; cases hk
  | cons s c cs ih =>
    intro k hk
    rw [marks_cons h, List.mem_append, List.mem_map] at hk
    rcases hk with hk | ⟨j, hj, rfl⟩
    · split at hk
      next hm =>
        obtain rfl : k = 0 := by simpa using hk
        rw [List.getElem?_cons_zero, hat hm]
      next => cases hk
    · rw [← ih j hj, ← h.drop_eq s c cs, List.getElem?_drop, Nat.add_comm]
      rw [h.drop_eq s c cs]

theorem Steady.filter_marks (hsteady : Steady turn a) (h : Consumes turn) (s : σ) (v q : List α) :
    (marks turn s (v ++ a :: q)).filter (· ≤ v.length) =
      (marks turn s (v ++ [a])).filter (· ≤ v.length) := by
  induction hn : v.length using Nat.strong_induction_on generalizing s v with
  | _ n ih =>
    subst hn
    rcases hsteady s v with ⟨rfl, m, hm⟩ | ⟨s', v', m, hlt, hturn⟩ | hnone
    · have hat : ∀ q, (marks turn s (a :: q)).filter (· ≤ 0) = if m then [0] else [] := by
        intro q
        have hrest := h.length_le s a q
        rw [marks_cons h, hm q, List.filter_append, filter_map_add_of_lt (by omega)]
        cases m with
        | false => rfl
        | true => rfl
      exact (hat q).trans (hat []).symm
    · have hat : ∀ q, (marks turn s (v ++ a :: q)).filter (· ≤ v.length) =
          (if m then [0] else []) ++
            ((marks turn s' (v' ++ a :: q)).filter (· ≤ v'.length)).map
              (· + (v.length - v'.length)) := by
        intro q
        have hcons : ∃ c cs, v ++ a :: q = c :: cs :=
          List.exists_cons_of_ne_nil (List.append_ne_nil_of_right_ne_nil v (List.cons_ne_nil a q))
        obtain ⟨c, cs, hcs⟩ := hcons
        have hlen : cs.length + 1 = v.length + (q.length + 1) := by
          rw [← List.length_cons (a := c), ← hcs, List.length_append, List.length_cons]
        have hshift : cs.length + 1 - (v' ++ a :: q).length = v.length - v'.length := by
          rw [List.length_append, List.length_cons]
          omega
        have hsplit : v.length = v'.length + (v.length - v'.length) := by omega
        rw [hcs, marks_cons h, ← hcs, hturn q, hshift, List.filter_append]
        congr 1
        · cases m with
          | false => rfl
          | true => simp
        · conv_lhs => rw [hsplit, Nat.add_sub_cancel_left]
          exact filter_map_add _ _ _
      rw [hat q, hat [], ih _ hlt s' v' rfl]
    · rw [List.filter_eq_nil_iff.mpr fun k hk => by simpa using hnone q k hk,
        List.filter_eq_nil_iff.mpr fun k hk => by simpa using hnone [] k hk]

def firstMark (turn : σ → List α → Turn σ α) (s : σ) (cs : List α) : Option ℕ :=
  (marks turn s cs).head?

theorem head?_eq_of_filter_eq {l l' : List ℕ} {n : ℕ} (hl : l.Pairwise (· < ·))
    (hl' : l'.Pairwise (· < ·)) (heq : l'.filter (· ≤ n) = l.filter (· ≤ n)) (hk : k ≤ n)
    (hhead : l.head? = some k) : l'.head? = some k := by
  obtain ⟨l, rfl⟩ := List.head?_eq_some_iff.mp hhead
  rw [List.filter_cons_of_pos (by simpa using hk)] at heq
  have hmem : k ∈ l' := List.mem_of_mem_filter (heq ▸ List.mem_cons_self)
  cases l' with
  | nil => cases hmem
  | cons j l' =>
    have hjk : j ≤ k := by
      rcases List.mem_cons.mp hmem with rfl | hmem
      · exact le_rfl
      · exact ((List.pairwise_cons.mp hl').1 k hmem).le
    rw [List.filter_cons_of_pos (by simpa using hjk.trans hk)] at heq
    rw [List.head?_cons, (List.cons.inj heq).1]

theorem firstMark_append (hsteady : Steady turn a) (h : Consumes turn) (hat : MarksAt turn a)
    {p : List α} (hp : firstMark turn s p = some k) (q : List α) :
    firstMark turn s (p ++ q) = some k := by
  have hmem : k ∈ marks turn s p := List.mem_of_head? hp
  obtain ⟨hlt, ha⟩ := List.getElem?_eq_some_iff.mp (hat.getElem? h k hmem)
  have hsplit : p = p.take k ++ a :: p.drop (k + 1) := by
    rw [← ha, List.getElem_cons_drop, List.take_append_drop]
  have hlen : (p.take k).length = k := List.length_take_of_le hlt.le
  have hfilter := hsteady.filter_marks h s (p.take k) (p.drop (k + 1) ++ q)
  have hfilter' := hsteady.filter_marks h s (p.take k) (p.drop (k + 1))
  rw [← List.cons_append, ← List.append_assoc, ← hsplit, ← hfilter', ← hsplit, hlen] at hfilter
  exact head?_eq_of_filter_eq (pairwise_marks h) (pairwise_marks h) hfilter le_rfl hp

/-- A scanner whose state after a mark is as good as the state `s₀`. -/
structure Restarts (turn : σ → List α → Turn σ α) (s₀ : σ) : Prop where
  rest : ∀ {s c cs}, (turn s (c :: cs)).marked → (turn s (c :: cs)).rest = cs
  state : ∀ {s c cs}, (turn s (c :: cs)).marked → ∀ l,
    marks turn (turn s (c :: cs)).state l = marks turn s₀ l

theorem Restarts.marks_eq {s₀ : σ} (hr : Restarts turn s₀) (h : Consumes turn)
    (hk : firstMark turn s cs = some k) :
    marks turn s cs = k :: (marks turn s₀ (cs.drop (k + 1))).map (· + (k + 1)) := by
  induction s, cs using induction_of_consumes h generalizing k with
  | nil s => cases hk
  | cons s c cs ih =>
    have hrest := h.length_le s c cs
    rw [firstMark, marks_cons h] at hk
    rw [marks_cons h]
    cases hm : (turn s (c :: cs)).marked with
    | true =>
      rw [hm, if_pos rfl] at hk
      obtain rfl : 0 = k := by simpa using hk
      rw [if_pos rfl, hr.state hm, hr.rest hm, List.singleton_append, Nat.add_sub_cancel_left]
      rfl
    | false =>
      rw [hm, if_neg Bool.false_ne_true, List.nil_append, List.head?_map,
        Option.map_eq_some_iff] at hk
      obtain ⟨j, hj, rfl⟩ := hk
      have hdrop : (turn s (c :: cs)).rest.drop (j + 1) = (c :: cs).drop
          (j + (cs.length + 1 - (turn s (c :: cs)).rest.length) + 1) := by
        conv_lhs => rw [← h.drop_eq s c cs, List.drop_drop]
        congr 1
        omega
      rw [if_neg Bool.false_ne_true, List.nil_append, ih hj, List.map_cons, List.map_map, hdrop]
      congr 2
      funext i
      simp only [Function.comp_apply]
      omega

end

section

variable {α : Type*}

def cutLoop (find : List α → Option ℕ) : ℕ → List α → List (List α) × List α
  | 0, buf => ([], buf)
  | fuel + 1, buf =>
    match find buf with
    | none => ([], buf)
    | some k =>
      let more := cutLoop find fuel (buf.drop (k + 1))
      (buf.take k :: more.1, more.2)

def cut (find : List α → Option ℕ) (buf : List α) : List (List α) × List α :=
  cutLoop find buf.length buf

/-- The pieces cut off so far and the text kept, when one more chunk arrives. -/
def feed (find : List α → Option ℕ) (st : List (List α) × List α) (chunk : List α) :
    List (List α) × List α :=
  let found := cut find (st.2 ++ chunk)
  (st.1 ++ found.1, found.2)

def between (first : ℕ) (buf : List α) : List ℕ → List (List α)
  | [] => []
  | k :: l => (buf.drop first).take (k - first) :: between (k + 1) buf l

/-- What is found lies in the text, and is found in every longer text. -/
structure Stable (find : List α → Option ℕ) : Prop where
  lt : ∀ {p k}, find p = some k → k < p.length
  append : ∀ {p k}, find p = some k → ∀ q, find (p ++ q) = some k

variable {find : List α → Option ℕ}

theorem Stable.length_drop_lt (h : Stable find) {buf : List α} (hk : find buf = some k) :
    (buf.drop (k + 1)).length < buf.length := by
  have := h.lt hk
  rw [List.length_drop]
  omega

theorem cutLoop_of_le (h : Stable find) : ∀ {n m : ℕ} {buf : List α},
    buf.length ≤ n → buf.length ≤ m → cutLoop find n buf = cutLoop find m buf := by
  have hempty : ∀ {m : ℕ} {buf : List α}, buf.length ≤ 0 → cutLoop find m buf = ([], buf) := by
    intro m buf hbuf
    cases m with
    | zero => rfl
    | succ m =>
      rw [cutLoop]
      cases hk : find buf with
      | none => rfl
      | some k => exact absurd ((h.lt hk).trans_le hbuf) (Nat.not_lt_zero _)
  intro n
  induction n with
  | zero => exact fun hn _ => (hempty hn).trans (hempty hn).symm
  | succ n ih =>
    intro m buf hn hm
    cases m with
    | zero => rw [hempty hm, hempty hm]
    | succ m =>
      rw [cutLoop, cutLoop]
      cases hk : find buf with
      | none => rfl
      | some k =>
        have hlt := h.length_drop_lt hk
        simp only [ih (Nat.le_of_lt_succ (hlt.trans_le hn))
          (Nat.le_of_lt_succ (hlt.trans_le hm))]

theorem cut_of_none {buf : List α} (h : find buf = none) : cut find buf = ([], buf) := by
  rw [cut]
  cases buf.length with
  | zero => rfl
  | succ n => rw [cutLoop, h]

theorem cut_of_some (h : Stable find) {buf : List α} (hk : find buf = some k) :
    cut find buf = (buf.take k :: (cut find (buf.drop (k + 1))).1,
      (cut find (buf.drop (k + 1))).2) := by
  have hlt := h.length_drop_lt hk
  rw [cut, cut, cutLoop_of_le h le_rfl (Nat.le_succ buf.length), cutLoop, hk]
  simp only [cutLoop_of_le h (Nat.le_of_lt hlt) le_rfl]

theorem cut_append (h : Stable find) (p q : List α) :
    cut find (p ++ q) = feed find (cut find p) q := by
  induction hn : p.length using Nat.strongRecOn generalizing p with
  | ind n ih =>
    cases hk : find p with
    | none => rw [cut_of_none hk, feed, List.nil_append]
    | some k =>
      have hlt := h.lt hk
      have hdrop : (p ++ q).drop (k + 1) = p.drop (k + 1) ++ q :=
        List.drop_append_of_le_length hlt
      have htake : (p ++ q).take k = p.take k := List.take_append_of_le_length hlt.le
      rw [cut_of_some h (h.append hk q), cut_of_some h hk, hdrop, htake,
        ih _ (hn ▸ h.length_drop_lt hk) _ rfl]
      rfl

theorem foldl_feed (h : Stable find) (chunks : List (List α)) (p : List α) :
    chunks.foldl (feed find) (cut find p) = cut find (p ++ chunks.flatten) := by
  induction chunks generalizing p with
  | nil => rw [List.flatten_nil, List.append_nil]; rfl
  | cons chunk chunks ih =>
    rw [List.foldl_cons, ← cut_append h, ih, List.flatten_cons, List.append_assoc]

/-- What is cut off, with its marks, and what is kept are the text. -/
theorem cut_eq (h : Stable find) {a : α} (hat : ∀ p k, find p = some k → p[k]? = some a)
    (buf : List α) : (cut find buf).1.flatMap (· ++ [a]) ++ (cut find buf).2 = buf ∧
      find (cut find buf).2 = none := by
  induction hn : buf.length using Nat.strongRecOn generalizing buf with
  | ind n ih =>
    cases hk : find buf with
    | none => simp [cut_of_none hk, hk]
    | some k =>
      obtain ⟨htext, hnone⟩ := ih _ (hn ▸ h.length_drop_lt hk) _ rfl
      obtain ⟨hlt, hak⟩ := List.getElem?_eq_some_iff.mp (hat buf k hk)
      rw [cut_of_some h hk]
      refine ⟨?_, hnone⟩
      rw [List.flatMap_cons, List.append_assoc, htext, List.append_assoc, List.singleton_append,
        ← hak, ← List.drop_eq_getElem_cons, List.take_append_drop]

theorem length_between (first : ℕ) (buf : List α) (l : List ℕ) :
    (between first buf l).length = l.length := by
  induction l generalizing first with
  | nil => rfl
  | cons k l ih => rw [between, List.length_cons, ih, List.length_cons]

theorem between_drop (buf : List α) (n m : ℕ) (l : List ℕ) :
    between (m + n) buf (l.map (· + n)) = between m (buf.drop n) l := by
  induction l generalizing m with
  | nil => rfl
  | cons k l ih =>
    have hstep : k + n + 1 = k + 1 + n := by omega
    rw [List.map_cons, between, between, List.drop_drop, Nat.add_sub_add_right, Nat.add_comm m n,
      hstep, ih]

variable {σ : Type*} {turn : σ → List α → Turn σ α} {s : σ}

theorem cut_firstMark (h : Consumes turn) (hr : Restarts turn s)
    (hstable : Stable (firstMark turn s)) (buf : List α) :
    (cut (firstMark turn s) buf).1 = between 0 buf (marks turn s buf) := by
  induction hn : buf.length using Nat.strongRecOn generalizing buf with
  | ind n ih =>
    cases hk : firstMark turn s buf with
    | none =>
      rw [cut_of_none hk, List.head?_eq_none_iff.mp hk]
      rfl
    | some k =>
      have hlt := hstable.length_drop_lt hk
      have hnext := between_drop buf (k + 1) 0 (marks turn s (buf.drop (k + 1)))
      rw [cut_of_some hstable hk, hr.marks_eq h hk, between, ih _ (hn ▸ hlt) _ rfl, ← hnext,
        List.drop_zero, Nat.sub_zero, Nat.zero_add]

end

end Scanner

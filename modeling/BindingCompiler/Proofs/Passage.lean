import BindingCompiler.Proofs.Round

/-!
Passage of a nesting over a text, by recursion on the characters. `after` reads on whatever comes;
`pass?` refuses a closing brace that closes nothing. Both take joined texts one after the other
where the cut is clean, and what is passed is passed alike inside further braces and
interpolations.
-/

namespace BindingCompiler.Nesting

/-- The nesting behind a text. -/
def after (n : Nesting) : Text → Nesting
  | [] => n
  | c :: t =>
      match n.read (some c) t.head?, t with
      | .visit within, t => within.settled.after t
      | .skip 2 next, _ :: t => next.after t
      | .skip _ next, t => next.after t

/-- The character is a closing brace of code, and no brace is open. -/
def Unmatched (n : Nesting) (c : Char) : Prop :=
  n.region = .code ∧ n.depth = 0 ∧ c = '}'

instance (n : Nesting) (c : Char) : Decidable (n.Unmatched c) :=
  inferInstanceAs (Decidable (_ ∧ _))

/-- Structural marks close nothing that is not open. -/
theorem Reads.matched_of_skip {n m : Nesting} {c : Char} {next : Option Char} {width : Nat}
    (h : n.Reads c next (.skip width m)) (hn : n.WellFormed) : ¬ n.Unmatched c := by
  intro hu
  obtain ⟨hcode, hdepth, rfl⟩ := hu
  cases eq_outermost_of_depth hn hcode hdepth
  cases h.read_eq

/-- The nesting behind a text in which every closing brace of code closes something. -/
def pass? (n : Nesting) : Text → Option Nesting
  | [] => some n
  | c :: t =>
      if n.Unmatched c then
        none
      else
        match n.read (some c) t.head?, t with
        | .visit within, t => within.settled.pass? t
        | .skip 2 next, _ :: t => next.pass? t
        | .skip _ next, t => next.pass? t

@[elab_as_elim]
theorem passage_induction {motive : Nesting → Text → Prop}
    (nil : ∀ n, motive n [])
    (visit : ∀ n c t within, Reads n c t.head? (.visit within) →
      motive within.settled t → motive n (c :: t))
    (skip : ∀ n c t next, Reads n c t.head? (.skip 1 next) → motive next t → motive n (c :: t))
    (opening : ∀ d ops t, motive ⟨.code, d + 1, d :: ops⟩ t →
      motive ⟨.template false, d, ops⟩ ('$' :: '{' :: t))
    (n : Nesting) (t : Text) : motive n t := by
  induction n, t using after.induct with
  | case1 n => exact nil n
  | case2 n c within t h ih => exact visit n c t within (h ▸ reads_read n c t.head?) ih
  | case3 n c next d t h ih =>
      have hr : Reads n c (d :: t).head? (.skip 2 next) := h ▸ reads_read n c (d :: t).head?
      cases hr
      exact opening _ _ t ih
  | case4 n c width next t hw h ih =>
      have hr : Reads n c t.head? (.skip width next) := h ▸ reads_read n c t.head?
      rcases hr.skip_cases with rfl | ⟨rfl, -, hd, -⟩
      · exact skip n c t next hr ih
      · cases t with
        | nil => cases hd
        | cons d t => exact absurd rfl (fun h => hw d t rfl h)

section Rounds

variable {n m : Nesting} {c : Char} {t : Text} {d : Nat} {ops : List Nat}

theorem after_visit (h : Reads n c t.head? (.visit m)) : n.after (c :: t) = m.settled.after t :=
  after.eq_2 n c t m h.read_eq

theorem after_skip (h : Reads n c t.head? (.skip 1 m)) : n.after (c :: t) = m.after t := by
  rw [after.eq_def]
  simp only [h.read_eq]

theorem after_opening :
    after ⟨.template false, d, ops⟩ ('$' :: '{' :: t) = after ⟨.code, d + 1, d :: ops⟩ t := rfl

theorem pass?_unmatched (hu : n.Unmatched c) : n.pass? (c :: t) = none := by
  rw [pass?.eq_def]
  exact if_pos hu

theorem pass?_visit (h : Reads n c t.head? (.visit m)) (hu : ¬ n.Unmatched c) :
    n.pass? (c :: t) = m.settled.pass? t := by
  rw [pass?.eq_def]
  simp only [if_neg hu, h.read_eq]

theorem pass?_skip (h : Reads n c t.head? (.skip 1 m)) (hu : ¬ n.Unmatched c) :
    n.pass? (c :: t) = m.pass? t := by
  rw [pass?.eq_def]
  simp only [if_neg hu, h.read_eq]

theorem pass?_opening :
    pass? ⟨.template false, d, ops⟩ ('$' :: '{' :: t) = pass? ⟨.code, d + 1, d :: ops⟩ t := rfl

end Rounds

theorem after_of_pass? {n m : Nesting} {t : Text} (h : n.pass? t = some m) : n.after t = m := by
  induction n, t using passage_induction with
  | nil n => exact Option.some.inj h
  | visit n c t within hr ih =>
      by_cases hu : n.Unmatched c
      · simp [pass?_unmatched hu] at h
      · rw [after_visit hr]
        exact ih (by rwa [pass?_visit hr hu] at h)
  | skip n c t next hr ih =>
      by_cases hu : n.Unmatched c
      · simp [pass?_unmatched hu] at h
      · rw [after_skip hr]
        exact ih (by rwa [pass?_skip hr hu] at h)
  | opening d ops t ih => exact ih h

theorem wellFormed_after {n : Nesting} (t : Text) (hn : n.WellFormed) : (n.after t).WellFormed := by
  induction n, t using passage_induction with
  | nil n => exact hn
  | visit n c t within hr ih =>
      rw [after_visit hr]
      exact ih (hr.wellFormed_visit hn)
  | skip n c t next hr ih =>
      rw [after_skip hr]
      exact ih (hr.wellFormed_skip hn)
  | opening d ops t ih => exact ih (Reads.openInterpolation.wellFormed_skip hn)

/-- Reading two joined texts comes to the cut between them: no opening of an interpolation lies
across it. -/
inductive Cut : Nesting → Text → Text → Prop where
  | here {n rest} : Cut n [] rest
  | visit {n within c mid rest} (h : Reads n c (mid ++ rest).head? (.visit within))
      (tail : Cut within.settled mid rest) : Cut n (c :: mid) rest
  | skip {n next c mid rest} (h : Reads n c (mid ++ rest).head? (.skip 1 next))
      (tail : Cut next mid rest) : Cut n (c :: mid) rest
  | opening {d ops mid rest} (tail : Cut ⟨.code, d + 1, d :: ops⟩ mid rest) :
      Cut ⟨.template false, d, ops⟩ ('$' :: '{' :: mid) rest

/-- Whatever is not the opening of an interpolation is read as if the text ended there. -/
private theorem Reads.in_front {n : Nesting} {c : Char} {mid rest : Text} {r : Reading}
    (h : Reads n c (mid ++ rest).head? r) (hr : ∀ m, r ≠ .skip 2 m) : Reads n c mid.head? r := by
  cases mid with
  | cons d mid => exact h
  | nil =>
      generalize hnext : List.head? ([] ++ rest) = next at h
      cases h with
      | openInterpolation => exact absurd rfl (hr _)
      | template opening mark escape => exact .template (by simp) mark escape
      | closeBrace h => exact .closeBrace h
      | blank h => exact .blank h
      | plain h => exact .plain h
      | quoted mark escape => exact .quoted mark escape
      | openQuote | openTemplate | openBrace | closeInterpolation | closeQuote | escapeQuoted
      | escapedQuoted | closeTemplate | escapeTemplate | escapedTemplate => constructor

section Front

variable {n m : Nesting} {c : Char} {mid rest : Text}

theorem Reads.visit_in_front (h : Reads n c (mid ++ rest).head? (.visit m)) :
    Reads n c mid.head? (.visit m) :=
  h.in_front (by simp)

theorem Reads.skip_in_front (h : Reads n c (mid ++ rest).head? (.skip 1 m)) :
    Reads n c mid.head? (.skip 1 m) :=
  h.in_front (by simp)

end Front

theorem Cut.after_append {n : Nesting} {s t : Text} (h : Cut n s t) :
    n.after (s ++ t) = (n.after s).after t := by
  induction h with
  | here => rfl
  | visit hr _ ih =>
      rw [List.cons_append, after_visit hr, after_visit hr.visit_in_front]
      exact ih
  | skip hr _ ih =>
      rw [List.cons_append, after_skip hr, after_skip hr.skip_in_front]
      exact ih
  | opening _ ih => exact ih

theorem Cut.pass?_append {n : Nesting} {s t : Text} (h : Cut n s t) :
    n.pass? (s ++ t) = (n.pass? s).bind (·.pass? t) := by
  induction h with
  | here => rfl
  | @visit n within c mid rest hr _ ih =>
      rw [List.cons_append]
      by_cases hu : n.Unmatched c
      · rw [pass?_unmatched hu, pass?_unmatched hu]
        rfl
      · rw [pass?_visit hr hu, pass?_visit hr.visit_in_front hu]
        exact ih
  | @skip n next c mid rest hr _ ih =>
      rw [List.cons_append]
      by_cases hu : n.Unmatched c
      · rw [pass?_unmatched hu, pass?_unmatched hu]
        rfl
      · rw [pass?_skip hr hu, pass?_skip hr.skip_in_front hu]
        exact ih
  | opening _ ih => exact ih

/-- A cut is clean when the first text does not end in a template literal, or when no brace begins
the second one. -/
theorem cut_of_head {n : Nesting} {s t : Text}
    (h : (n.after s).region = .template false → t.head? ≠ some '{') : Cut n s t := by
  have same {n : Nesting} {c : Char} {s : Text}
      (h : (n.after (c :: s)).region = .template false → t.head? ≠ some '{') :
      n.region = .template false → c = '$' →
        (s.head? = some '{' ↔ (s ++ t).head? = some '{') := by
    intro hn hc
    cases s with
    | cons d s => rfl
    | nil =>
        obtain ⟨region, d, ops⟩ := n
        cases hn
        cases hc
        simpa using h rfl
  induction n, s using passage_induction with
  | nil n => exact .here
  | visit n c s within hr ih =>
      refine .visit (hr.congr_next (same h)) (ih ?_)
      rwa [after_visit hr] at h
  | skip n c s next hr ih =>
      refine .skip (hr.congr_next (same h)) (ih ?_)
      rwa [after_skip hr] at h
  | opening d ops s ih => exact .opening (ih h)

theorem cut_of_code {n : Nesting} {s t : Text} (h : (n.after s).region = .code) : Cut n s t := by
  apply cut_of_head
  intro ht
  rw [h] at ht
  cases ht

theorem pass?_append_of_code {n m : Nesting} {s t : Text} (h : n.pass? s = some m)
    (hm : m.region = .code) : n.pass? (s ++ t) = m.pass? t := by
  have hcut : Cut n s t := cut_of_code (by rwa [after_of_pass? h])
  rw [hcut.pass?_append, h]
  rfl

/-- The same nesting inside so many more open braces and inside further interpolations. -/
def inside (n : Nesting) (braces : Nat) (outer : List Nat) : Nesting :=
  ⟨n.region, n.depth + braces, n.openings.map (· + braces) ++ outer⟩

theorem inside_outermost (braces : Nat) (outer : List Nat) :
    outermost.inside braces outer = ⟨.code, braces, outer⟩ := by
  simp [inside, outermost]

theorem inside_opened (d : Nat) (ops : List Nat) (braces : Nat) (outer : List Nat) :
    inside ⟨.code, d + 1, d :: ops⟩ braces outer =
      ⟨.code, d + braces + 1, (d + braces) :: (ops.map (· + braces) ++ outer)⟩ := by
  have hd : d + 1 + braces = d + braces + 1 := by omega
  simp only [inside, List.map_cons, List.cons_append, hd]

section Frames

variable {n m : Nesting} {c : Char} {next : Option Char} {braces : Nat} {outer : List Nat}

theorem settled_inside : (n.inside braces outer).settled = n.settled.inside braces outer := rfl

theorem Reads.inside_visit (h : Reads n c next (.visit m)) (hu : ¬ n.Unmatched c)
    (ho : ∀ o ∈ outer, o < braces) :
    Reads (n.inside braces outer) c next (.visit (m.inside braces outer)) := by
  cases h with
  | @openBrace d ops =>
      have hd : d + 1 + braces = d + braces + 1 := by omega
      simp only [inside, hd]
      exact .openBrace
  | @closeBrace d ops _ hc =>
      have hpos : d ≠ 0 := fun hz => hu ⟨rfl, hz, rfl⟩
      have hd : d - 1 + braces = d + braces - 1 := by omega
      simp only [inside, hd]
      refine .closeBrace ?_
      cases ops with
      | cons b ops =>
          have hb : b ≠ d - 1 := by simpa using hc
          simp only [List.map_cons, List.cons_append, List.head?_cons, ne_eq, Option.some.injEq]
          omega
      | nil =>
          intro hh
          have := ho _ (List.mem_of_head? hh)
          omega
  | plain h => exact .plain h
  | quoted mark escape => exact .quoted mark escape
  | escapedQuoted => exact .escapedQuoted
  | template opening mark escape => exact .template opening mark escape
  | escapedTemplate => exact .escapedTemplate

theorem Reads.inside_skip {width : Nat} (h : Reads n c next (.skip width m))
    (hu : ¬ n.Unmatched c) :
    Reads (n.inside braces outer) c next (.skip width (m.inside braces outer)) := by
  cases h with
  | @closeInterpolation d ops =>
      have hpos : d ≠ 0 := fun hz => hu ⟨rfl, hz, rfl⟩
      have hd : d - 1 + braces = d + braces - 1 := by omega
      simp only [inside, List.map_cons, List.cons_append, hd]
      exact .closeInterpolation
  | @openInterpolation d ops =>
      have hd : d + 1 + braces = d + braces + 1 := by omega
      simp only [inside, List.map_cons, List.cons_append, hd]
      exact .openInterpolation
  | blank h => exact .blank h
  | openQuote => exact .openQuote
  | openTemplate => exact .openTemplate
  | closeQuote => exact .closeQuote
  | escapeQuoted => exact .escapeQuoted
  | closeTemplate => exact .closeTemplate
  | escapeTemplate => exact .escapeTemplate

theorem unmatched_of_inside (h : (n.inside braces outer).Unmatched c) : n.Unmatched c :=
  ⟨h.1, Nat.eq_zero_of_add_eq_zero_right h.2.1, h.2.2⟩

/-- What is passed is passed alike inside further braces and interpolations. -/
theorem pass?_inside {t : Text} (h : n.pass? t = some m) (ho : ∀ o ∈ outer, o < braces) :
    (n.inside braces outer).pass? t = some (m.inside braces outer) := by
  induction n, t using passage_induction with
  | nil n =>
      cases h
      rfl
  | visit n c t within hr ih =>
      by_cases hu : n.Unmatched c
      · simp [pass?_unmatched hu] at h
      · rw [pass?_visit hr hu] at h
        rw [pass?_visit (hr.inside_visit hu ho) (fun hi => hu (unmatched_of_inside hi)),
          settled_inside]
        exact ih h
  | skip n c t after hr ih =>
      by_cases hu : n.Unmatched c
      · simp [pass?_unmatched hu] at h
      · rw [pass?_skip hr hu] at h
        rw [pass?_skip (hr.inside_skip hu) (fun hi => hu (unmatched_of_inside hi))]
        exact ih h
  | opening d ops t ih =>
      have hrest := ih h
      rw [inside_opened] at hrest
      exact hrest

end Frames

end BindingCompiler.Nesting

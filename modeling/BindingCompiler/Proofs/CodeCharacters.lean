import BindingCompiler.Proofs.Scanning

/-!
The characters of code in a text. They are what a scan of the whole text shows to a visitor that
looks at nothing but code; joined texts show theirs one after the other, and further braces or
interpolations around a text change nothing of them.
-/

namespace BindingCompiler

/-- The character at the place, if that is in code. -/
def Scanner.code? (s : Scanner) : Option Char :=
  if s.inCode then s.here? else none

/-- The characters of code that a scan of the whole text visits, in order. -/
def Text.codeCharacters (t : Text) : Text :=
  ((Scanner.start t).scan
    (.observing fun s seen => seen ++ s.code?.toList : Visitor Text Empty) []).memory

theorem Scanner.code?_between {front back : Text} {n : Nesting} :
    (between front back n).code? = if n.region = .code then back.head? else none := by
  by_cases hn : n.region = .code
  · rw [code?, if_pos ((inCode_eq_true_iff _).mpr hn), if_pos hn, here?_between]
  · rw [code?, if_neg (mt (inCode_eq_true_iff _).mp hn), if_neg hn]

namespace Nesting

/-- The characters of code that reading a text from a nesting shows. -/
def code (n : Nesting) (t : Text) : Text :=
  (n.shown [] t).filterMap Scanner.code?

/-- What lies in front of a text is no matter. -/
private theorem filterMap_code?_shown (n : Nesting) (front other t : Text) :
    (n.shown front t).filterMap Scanner.code? = (n.shown other t).filterMap Scanner.code? := by
  induction n, t using passage_induction generalizing front other with
  | nil n => rfl
  | visit n c t within hr ih =>
      rw [shown_visit hr, shown_visit hr, List.filterMap_cons, List.filterMap_cons,
        Scanner.code?_between, Scanner.code?_between, ih (front ++ [c]) (other ++ [c])]
  | skip n c t next hr ih =>
      rw [shown_skip hr, shown_skip hr]
      exact ih (front ++ [c]) (other ++ [c])
  | opening d ops t ih => exact ih (front ++ ['$', '{']) (other ++ ['$', '{'])

section Rounds

variable {n m : Nesting} {c : Char} {t : Text} {d : Nat} {ops : List Nat}

theorem code_visit (h : Reads n c t.head? (.visit m)) :
    n.code (c :: t) = if m.region = .code then c :: m.settled.code t else m.settled.code t := by
  rw [code, shown_visit h, List.filterMap_cons, Scanner.code?_between,
    filterMap_code?_shown m.settled _ []]
  by_cases hm : m.region = .code
  · rw [if_pos hm, if_pos hm]
    rfl
  · rw [if_neg hm, if_neg hm]
    rfl

theorem code_skip (h : Reads n c t.head? (.skip 1 m)) : n.code (c :: t) = m.code t := by
  rw [code, shown_skip h, filterMap_code?_shown m _ []]
  rfl

theorem code_opening :
    code ⟨.template false, d, ops⟩ ('$' :: '{' :: t) = code ⟨.code, d + 1, d :: ops⟩ t := by
  rw [code, shown_opening, filterMap_code?_shown _ _ []]
  rfl

end Rounds

theorem Cut.code_append {n : Nesting} {s t : Text} (h : Cut n s t) :
    n.code (s ++ t) = n.code s ++ (n.after s).code t := by
  induction h with
  | here => rfl
  | @visit n within c mid rest hr _ ih =>
      rw [List.cons_append, code_visit hr, code_visit hr.visit_in_front,
        after_visit hr.visit_in_front, ih]
      split
      · rfl
      · rfl
  | @skip n next c mid rest hr _ ih =>
      rw [List.cons_append, code_skip hr, code_skip hr.skip_in_front,
        after_skip hr.skip_in_front, ih]
  | opening _ ih =>
      rw [List.cons_append, List.cons_append, code_opening, code_opening, after_opening, ih]

theorem mem_of_mem_code {n : Nesting} {t : Text} {c : Char} (h : c ∈ n.code t) : c ∈ t := by
  induction n, t using passage_induction with
  | nil n => cases h
  | visit n d t within hr ih =>
      rw [code_visit hr] at h
      split at h
      · cases h with
        | head => exact List.mem_cons_self ..
        | tail _ h => exact List.mem_cons_of_mem _ (ih h)
      · exact List.mem_cons_of_mem _ (ih h)
  | skip n d t next hr ih =>
      rw [code_skip hr] at h
      exact List.mem_cons_of_mem _ (ih h)
  | opening d ops t ih =>
      rw [code_opening] at h
      exact List.mem_cons_of_mem _ (List.mem_cons_of_mem _ (ih h))

/-- A text that closes nothing around it shows the same characters of code inside further braces
and interpolations. -/
theorem code_inside {n m : Nesting} {t : Text} {braces : Nat} {outer : List Nat}
    (h : n.pass? t = some m) (ho : ∀ o ∈ outer, o < braces) :
    (n.inside braces outer).code t = n.code t := by
  induction n, t using passage_induction with
  | nil n => rfl
  | visit n c t within hr ih =>
      by_cases hu : n.Unmatched c
      · simp [pass?_unmatched hu] at h
      · rw [pass?_visit hr hu] at h
        rw [code_visit (hr.inside_visit hu ho), code_visit hr, settled_inside, ih h]
        rfl
  | skip n c t next hr ih =>
      by_cases hu : n.Unmatched c
      · simp [pass?_unmatched hu] at h
      · rw [pass?_skip hr hu] at h
        rw [code_skip (hr.inside_skip hu), code_skip hr, ih h]
  | opening d ops t ih =>
      have hrest := ih h
      rw [inside_opened] at hrest
      rw [code_opening, ← hrest]
      exact code_opening

end Nesting

theorem Text.codeCharacters_eq (t : Text) : t.codeCharacters = Nesting.outermost.code t := by
  have hfold (shown : List Scanner) (seen : Text) :
      shown.foldl (fun seen s => seen ++ s.code?.toList) seen =
        seen ++ shown.filterMap Scanner.code? := by
    induction shown generalizing seen with
    | nil => exact (List.append_nil seen).symm
    | cons s shown ih =>
        rw [List.foldl_cons, ih, List.filterMap_cons, List.append_assoc]
        cases s.code? <;> rfl
  rw [codeCharacters, Scanner.scan_start (Visitor.quiet_observing _), Visitor.watch_observing]
  exact hfold _ []

end BindingCompiler

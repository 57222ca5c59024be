import WarpLoop.Shrubbery.ReaderErrors

/-! Indentation. The reader counts the spaces at the beginning of a line and strips all
whitespace, so that other whitespace there counts for nothing; its search for tabs looks only at
what it has counted. -/
namespace WarpLoop.Shrubbery
open Python

/-- The whitespace before the content of a line. -/
def leading (raw : Text) : Text := (stripComment false raw).takeWhile isSpace

def contentOf (text : Text) : List Text := (splitLines text).filter HasContent

def SpacesOnly (raw : Text) : Prop := ∀ c ∈ leading raw, c = ' '

instance (raw : Text) : Decidable (SpacesOnly raw) := List.decidableBAll _ _

theorem takeWhile_eq_of_forall {p q : Char → Bool} (weaker : ∀ c, q c = true → p c = true) {line : Text}
    (all : ∀ c ∈ line.takeWhile p, q c = true) : line.takeWhile p = line.takeWhile q := by
  induction line with
  | nil => rfl
  | cons c rest ih =>
    cases first : p c with
    | true =>
      rw [List.takeWhile_cons_of_pos first] at all ⊢
      rw [List.takeWhile_cons_of_pos (all c List.mem_cons_self),ih (fun d inside => all d (List.mem_cons_of_mem c inside))]
    | false =>
      have other : q c ≠ true := fun holds => by simp [weaker c holds] at first
      rw [List.takeWhile_cons_of_neg (by simp [first]),List.takeWhile_cons_of_neg other]

/-- A line with content keeps what stands before it when it loses what stands behind it. -/
theorem leading_rstrip {raw : Text} (content : HasContent raw) :
    (rstrip (stripComment false raw)).takeWhile isSpace = leading raw := by
  have prefix_ : rstrip (stripComment false raw) <+: stripComment false raw := List.rdropWhile_prefix isSpace _
  obtain ⟨cut,whole⟩ := prefix_
  rw [leading,← whole,List.takeWhile_append,if_neg]
  · rw [whole]
  · intro full
    apply content
    have split : (rstrip (stripComment false raw)).takeWhile isSpace ++ (rstrip (stripComment false raw)).dropWhile isSpace =
        rstrip (stripComment false raw) := List.takeWhile_append_dropWhile
    have length := congrArg List.length split
    rw [List.length_append] at length
    have nothing : (rstrip (stripComment false raw)).dropWhile isSpace = [] := by
      apply List.eq_nil_of_length_eq_zero
      omega
    rw [strip,stripWith,nothing]
    rfl

/-- The indentation that is counted is the whole of it, if it is made of spaces. -/
theorem leading_eq {raw : Text} (content : HasContent raw) (spaces : SpacesOnly raw) :
    leading raw = List.replicate (contentLine raw).1 ' ' := by
  have counted : leading raw = (rstrip (stripComment false raw)).takeWhile (· = ' ') := by
    rw [← leading_rstrip content]
    apply takeWhile_eq_of_forall
    · intro c space
      rw [of_decide_eq_true space]
      rfl
    · intro c inside
      rw [leading_rstrip content] at inside
      exact decide_eq_true (spaces c inside)
  rw [List.eq_replicate_iff]
  refine ⟨?_,spaces⟩
  rw [counted]
  exact (indentOf_eq _).symm

/-- Nothing about the indentation of a text is lost: the lines of a text that is read are
indented with spaces, so that equal indents are equal indentations, and a tab there is an error
of the reader's own. -/
structure NeverMisread (text : Text) : Prop where
  spaces : (shrubberyToScheme text).isOk = true → ∀ raw ∈ contentOf text, SpacesOnly raw
  indents : (shrubberyToScheme text).isOk = true → ∀ raw ∈ contentOf text, ∀ other ∈ contentOf text,
    (contentLine raw).1 = (contentLine other).1 ↔ leading raw = leading other
  tabs : (∃ raw ∈ contentOf text, '\t' ∈ leading raw) →
    ∃ e, shrubberyToScheme text = .error e ∧ e.isShrubberyError = true

theorem indents_eq_iff {text : Text} (spaces : ∀ raw ∈ contentOf text, SpacesOnly raw) {raw other : Text}
    (inside : raw ∈ contentOf text) (inside' : other ∈ contentOf text) :
    (contentLine raw).1 = (contentLine other).1 ↔ leading raw = leading other := by
  have content : HasContent raw := of_decide_eq_true (List.mem_filter.mp inside).2
  have content' : HasContent other := of_decide_eq_true (List.mem_filter.mp inside').2
  rw [leading_eq content (spaces raw inside),leading_eq content' (spaces other inside'),List.replicate_left_inj]

/-- A text whose lines with content are indented with spaces is never misread. -/
theorem never_misread (text : Text) (spaces : ∀ raw ∈ contentOf text, SpacesOnly raw) : NeverMisread text := by
  refine ⟨fun _ => spaces,fun _ raw inside other inside' => indents_eq_iff spaces inside inside',?_⟩
  rintro ⟨raw,inside,tab⟩
  exact absurd (spaces raw inside '\t' tab) (by decide)

theorem never_misread_clauses : NeverMisread "define f(x):\n  cond:\n    | x: y // \t\n\t\n  g(x)\n".toList := by
  have lines : contentOf "define f(x):\n  cond:\n    | x: y // \t\n\t\n  g(x)\n".toList =
      ["define f(x):".toList,"  cond:".toList,"    | x: y // \t".toList,"  g(x)".toList] := by decide +kernel
  apply never_misread
  rw [lines]
  simp only [List.forall_mem_cons]
  exact ⟨by decide,by decide,by decide,by decide,fun _ none => nomatch none⟩

theorem tab_misread : ¬ NeverMisread "\tf(x)".toList := by
  intro never
  have read : shrubberyToScheme "\tf(x)".toList = .ok "(f x)\n".toList := by decide +kernel
  have inside : "\tf(x)".toList ∈ contentOf "\tf(x)".toList := by decide +kernel
  have spaces := never.spaces (by rw [read]; rfl) _ inside '\t' (by decide +kernel)
  exact absurd spaces (by decide)

end WarpLoop.Shrubbery

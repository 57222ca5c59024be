import Mathlib.Data.List.Basic

/-! Incremental scanners over a buffered input. A scanner takes an item from the
front of its buffer or asks for more input; after an item it may also halt, that
is, leave the rest of the buffer for the next chunk to arrive. The question is when
the cut of the input into chunks cannot be observed. -/
namespace WarpLoop.Lib.Incremental

variable {σ β ο : Type*}

/-- One item taken from the buffer: the state after it, what was emitted, the
unread rest, and whether the scanner now halts. -/
structure Taken (σ β ο : Type*) where
  halt : Bool
  state : σ
  out : Option ο
  rest : List β

/-- A scanner reads a non-empty prefix of its buffer and nothing behind it. -/
structure Scanner (σ β ο : Type*) where
  next : σ → List β → Option (Taken σ β ο)
  reads : ∀ {s b t}, next s b = some t →
    ∃ p, p ≠ [] ∧ b = p ++ t.rest ∧ ∀ r, next s (p ++ r) = some {t with rest := r}

namespace Scanner

variable (S : Scanner σ β ο)

/-- Takes items until the scanner waits or halts. The fuel bounds their number. -/
def drain : Nat → σ → List β → σ × List β × List ο
  | 0,s,b => (s,b,[])
  | fuel+1,s,b =>
    match S.next s b with
    | none => (s,b,[])
    | some t =>
      if t.halt then (t.state,t.rest,t.out.toList)
      else
        let later := drain fuel t.state t.rest
        (later.1,later.2.1,t.out.toList ++ later.2.2)

def feed (s : σ) (b chunk : List β) : σ × List β × List ο :=
  S.drain (b ++ chunk).length s (b ++ chunk)

def feedAll : σ → List β → List (List β) → σ × List β × List ο
  | s,b,[] => (s,b,[])
  | s,b,chunk::chunks =>
    let first := S.feed s b chunk
    let later := feedAll first.1 first.2.1 chunks
    (later.1,later.2.1,first.2.2 ++ later.2.2)

/-- Draining never stops in a halt that leaves an item behind in the buffer. -/
inductive Quiet : σ → List β → Prop
  | wait {s b} : S.next s b = none → Quiet s b
  | halt {s b t} : S.next s b = some t → t.halt = true → S.next t.state t.rest = none → Quiet s b
  | more {s b t} : S.next s b = some t → t.halt = false → Quiet t.state t.rest → Quiet s b

variable {S}

theorem next_append {s : σ} {b : List β} {t : Taken σ β ο} (taken : S.next s b = some t) (later : List β) :
    S.next s (b ++ later) = some {t with rest := t.rest ++ later} := by
  obtain ⟨p,_,split,again⟩ := S.reads taken
  rw [split,List.append_assoc]
  exact again _

theorem rest_length_lt {s : σ} {b : List β} {t : Taken σ β ο} (taken : S.next s b = some t) :
    t.rest.length < b.length := by
  obtain ⟨p,read,split,_⟩ := S.reads taken
  have := List.length_pos_iff.mpr read
  rw [split,List.length_append]
  omega

theorem next_nil (s : σ) : S.next s [] = none := by
  cases taken : S.next s [] with
  | none => rfl
  | some t => simpa using rest_length_lt taken

theorem next_none_of_append {s : σ} {b later : List β} (waits : S.next s (b ++ later) = none) :
    S.next s b = none := by
  cases taken : S.next s b with
  | none => rfl
  | some t => rw [next_append taken] at waits; cases waits

theorem quiet_halt_iff {s : σ} {b : List β} {t : Taken σ β ο} (taken : S.next s b = some t) (halts : t.halt = true) :
    S.Quiet s b ↔ S.next t.state t.rest = none := by
  refine ⟨fun quiet => ?_,.halt taken halts⟩
  cases quiet with
  | wait none => rw [taken] at none; cases none
  | halt same _ waits => rw [taken] at same; cases same; exact waits
  | more same more _ => rw [taken] at same; cases same; rw [halts] at more; cases more

theorem quiet_more_iff {s : σ} {b : List β} {t : Taken σ β ο} (taken : S.next s b = some t) (more : t.halt = false) :
    S.Quiet s b ↔ S.Quiet t.state t.rest := by
  refine ⟨fun quiet => ?_,.more taken more⟩
  cases quiet with
  | wait none => rw [taken] at none; cases none
  | halt same halts _ => rw [taken] at same; cases same; rw [more] at halts; cases halts
  | more same _ on => rw [taken] at same; cases same; exact on

theorem drain_fuel {fuel : Nat} {s : σ} {b : List β} (enough : b.length ≤ fuel) :
    S.drain fuel s b = S.drain b.length s b := by
  induction fuel using Nat.strongRecOn generalizing s b with
  | ind fuel ih =>
    cases taken : S.next s b with
    | none => cases fuel <;> cases b <;> simp [drain,taken]
    | some t =>
      have shorter := rest_length_lt taken
      obtain ⟨n,rfl⟩ : ∃ n, fuel = n + 1 := ⟨fuel - 1,by omega⟩
      obtain ⟨m,length⟩ : ∃ m, b.length = m + 1 := ⟨b.length - 1,by omega⟩
      rw [length]
      simp only [drain,taken]
      split
      · rfl
      · rw [ih n (by omega) (by omega : t.rest.length ≤ n),ih m (by omega) (by omega : t.rest.length ≤ m)]

theorem drain_eq (s : σ) (b : List β) :
    S.drain b.length s b = match S.next s b with
      | none => (s,b,[])
      | some t =>
        if t.halt then (t.state,t.rest,t.out.toList)
        else
          let later := S.drain t.rest.length t.state t.rest
          (later.1,later.2.1,t.out.toList ++ later.2.2) := by
  cases taken : S.next s b with
  | none => cases b <;> simp [drain,taken]
  | some t =>
    have shorter := rest_length_lt taken
    obtain ⟨m,length⟩ : ∃ m, b.length = m + 1 := ⟨b.length - 1,by omega⟩
    rw [length]
    simp only [drain,taken]
    split
    · rfl
    · rw [drain_fuel (by omega : t.rest.length ≤ m)]

theorem drain_length_le (s : σ) (b : List β) : (S.drain b.length s b).2.1.length ≤ b.length := by
  induction length : b.length using Nat.strongRecOn generalizing s b with
  | ind n ih =>
    subst n
    rw [drain_eq]
    cases taken : S.next s b with
    | none => exact Nat.le_refl _
    | some t =>
      have shorter := rest_length_lt taken
      dsimp only
      split
      · exact Nat.le_of_lt shorter
      · exact Nat.le_trans (ih _ shorter t.state t.rest rfl) (Nat.le_of_lt shorter)

/-- Draining a quiet input in one go, or first without its tail and then with
it, comes to the same. -/
theorem drain_append {s : σ} {b later : List β} (quiet : S.Quiet s (b ++ later)) :
    let first := S.drain b.length s b
    S.next first.1 first.2.1 = none ∧ S.Quiet first.1 (first.2.1 ++ later) ∧
      S.drain (b ++ later).length s (b ++ later) =
        let second := S.feed first.1 first.2.1 later
        (second.1,second.2.1,first.2.2 ++ second.2.2) := by
  induction length : b.length using Nat.strongRecOn generalizing s b with
  | ind n ih =>
    subst n
    cases taken : S.next s b with
    | none =>
      rw [drain_eq,taken]
      exact ⟨taken,quiet,by simp [feed]⟩
    | some t =>
      have whole := next_append taken later
      cases halts : t.halt with
      | true =>
        have waits : S.next t.state (t.rest ++ later) = none := (quiet_halt_iff whole halts).mp quiet
        rw [drain_eq s b,drain_eq s (b ++ later),taken,whole]
        simp only [halts,if_true]
        exact ⟨next_none_of_append waits,.wait waits,by rw [feed,drain_eq,waits]; simp⟩
      | false =>
        have on : S.Quiet t.state (t.rest ++ later) := (quiet_more_iff whole halts).mp quiet
        obtain ⟨idle,still,same⟩ := ih _ (rest_length_lt taken) on rfl
        rw [drain_eq s b,drain_eq s (b ++ later),taken,whole]
        simp only [halts,Bool.false_eq_true,if_false]
        refine ⟨idle,still,?_⟩
        rw [same]
        simp

/-- On a quiet input every cut into chunks gives what one chunk gives. -/
theorem feedAll_eq_drain (s : σ) (b : List β) (chunks : List (List β)) (waits : S.next s b = none)
    (quiet : S.Quiet s (b ++ chunks.flatten)) :
    S.feedAll s b chunks = S.drain (b ++ chunks.flatten).length s (b ++ chunks.flatten) := by
  induction chunks generalizing s b with
  | nil =>
    rw [List.flatten_nil,List.append_nil,drain_eq,waits]
    rfl
  | cons chunk chunks ih =>
    rw [List.flatten_cons,← List.append_assoc] at quiet ⊢
    obtain ⟨idle,still,same⟩ := drain_append quiet
    rw [same]
    simp only [feedAll,feed,ih _ _ idle still]

/-- A scanner that halts in front of an item: the bytes up to the halt form a
chunk of their own, after which the rest would not have been left unread. -/
theorem unquiet_split {s : σ} {b : List β} (loud : ¬ S.Quiet s b) :
    ∃ p r halted outs, p ≠ [] ∧ r ≠ [] ∧ b = p ++ r ∧ S.next halted r ≠ none ∧
      S.drain p.length s p = (halted,[],outs) ∧ S.drain b.length s b = (halted,r,outs) := by
  induction length : b.length using Nat.strongRecOn generalizing s b with
  | ind n ih =>
    subst n
    cases taken : S.next s b with
    | none => exact absurd (.wait taken) loud
    | some t =>
      obtain ⟨p,read,split,again⟩ := S.reads taken
      cases halts : t.halt with
      | true =>
        have due : S.next t.state t.rest ≠ none := fun none => loud (.halt taken halts none)
        have left : t.rest ≠ [] := fun empty => due (by rw [empty]; exact next_nil _)
        have alone : S.next s p = some {t with rest := []} := by simpa using again []
        refine ⟨p,t.rest,t.state,t.out.toList,read,left,split,due,?_,?_⟩
        · rw [drain_eq,alone]; simp [halts]
        · rw [drain_eq,taken]; simp [halts]
      | false =>
        have later : ¬ S.Quiet t.state t.rest := fun quiet => loud (.more taken halts quiet)
        obtain ⟨q,r,halted,outs,_,left,rest,due,first,whole⟩ := ih _ (rest_length_lt taken) later rfl
        have alone : S.next s (p ++ q) = some {t with rest := q} := again q
        refine ⟨p ++ q,r,halted,t.out.toList ++ outs,by simp [read],left,?_,due,?_,?_⟩
        · rw [split,rest,List.append_assoc]
        · rw [drain_eq,alone]; simp [halts,first]
        · rw [drain_eq,taken]; simp [halts,whole]

theorem feedAll_congr {s : σ} {input : List β} (quiet : S.Quiet s input) {chunks others : List (List β)}
    (joined : chunks.flatten = input) (joinedToo : others.flatten = input) :
    S.feedAll s [] chunks = S.feedAll s [] others := by
  subst joined
  have idle : S.next s [] = none := next_nil s
  rw [feedAll_eq_drain s [] chunks idle quiet,
    feedAll_eq_drain s [] others idle (by rw [joinedToo]; exact quiet),joinedToo]

/-- If all cuts into non-empty chunks leave the same unread bytes, the input is
quiet: otherwise the cut at the halt gets further than the uncut input. -/
theorem quiet_of_feedAll_congr {s : σ} {input : List β}
    (same : ∀ chunks others : List (List β), [] ∉ chunks → [] ∉ others → chunks.flatten = input →
      others.flatten = input → (S.feedAll s [] chunks).2.1 = (S.feedAll s [] others).2.1) : S.Quiet s input := by
  by_contra loud
  obtain ⟨p,r,halted,outs,read,left,split,due,first,whole⟩ := unquiet_split loud
  have cut := same [input] [p,r] (by simp [split,read]) (by simp [read.symm,left.symm]) (by simp) (by simp [split])
  have shorter : (S.drain r.length halted r).2.1.length < r.length := by
    cases taken : S.next halted r with
    | none => exact absurd taken due
    | some t =>
      have taking := rest_length_lt taken
      rw [drain_eq,taken]
      dsimp only
      split
      · exact taking
      · exact Nat.lt_of_le_of_lt (drain_length_le t.state t.rest) taking
  have lengths := congrArg List.length cut
  simp only [feedAll,feed,List.nil_append,first,whole] at lengths
  omega

end Scanner

end WarpLoop.Lib.Incremental

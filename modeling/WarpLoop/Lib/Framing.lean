import WarpLoop.Lib.Replay

/-! Items laid end to end in one stream, delivered in pieces that need not end where an
item does. What has arrived is always some whole items and a proper beginning of one more;
a receiver that handles the whole ones and keeps the beginning has handled every item once,
in order, however the stream is cut. Nothing here refers to a particular encoding. -/
namespace WarpLoop.Lib.Framing
open Replay

variable {α β : Type*} (encode : α → List β) (Ok : α → Prop)

/-- A beginning of an item without its end. -/
def Part (part : List β) : Prop := ∃ x, Ok x ∧ part <+: encode x ∧ part ≠ encode x

/-- No item begins with another one. -/
def PrefixFree : Prop := ∀ x y, Ok x → Ok y → encode x <+: encode y → x = y

variable {encode Ok}

/-- No whole item fits into a part. -/
theorem Part.no_item (free : PrefixFree encode Ok) {part : List β} (isPart : Part encode Ok part) {x : α} (ok : Ok x) :
    ¬ encode x <+: part := by
  intro inside
  obtain ⟨y,good,beginning,proper⟩ := isPart
  obtain rfl : x = y := free x y ok good (inside.trans beginning)
  exact proper (beginning.eq_of_length_le inside.length_le)

/-- A beginning of a stream of items ends inside one of them or inside the tail. -/
theorem split_prefix (items : List α) (ok : ∀ x ∈ items, Ok x) {tail arrived later : List β}
    (part : Part encode Ok tail) (stream : arrived ++ later = items.flatMap encode ++ tail) :
    ∃ done left rest, items = done ++ left ∧ arrived = done.flatMap encode ++ rest ∧ Part encode Ok rest ∧
      rest ++ later = left.flatMap encode ++ tail := by
  induction items generalizing arrived with
  | nil =>
    obtain ⟨x,good,beginning,proper⟩ := part
    have shorter : arrived <+: tail := ⟨later,by simpa using stream⟩
    refine ⟨[],[],arrived,rfl,rfl,⟨x,good,shorter.trans beginning,?_⟩,by simpa using stream⟩
    intro whole
    exact proper (beginning.eq_of_length_le (whole ▸ shorter.length_le))
  | cons x items ih =>
    rw [List.flatMap_cons,List.append_assoc] at stream
    by_cases inside : encode x <+: arrived
    · obtain ⟨more,rfl⟩ := inside
      rw [List.append_assoc,List.append_cancel_left_eq] at stream
      obtain ⟨done,left,rest,rfl,rfl,restPart,same⟩ := ih (fun y member => ok y (List.mem_cons_of_mem x member)) stream
      exact ⟨x::done,left,rest,rfl,by simp,restPart,same⟩
    · have beginning : arrived <+: encode x := by
        have first : arrived <+: encode x ++ (items.flatMap encode ++ tail) := ⟨later,stream⟩
        have second : encode x <+: encode x ++ (items.flatMap encode ++ tail) := List.prefix_append _ _
        exact (List.prefix_or_prefix_of_prefix first second).resolve_right inside
      refine ⟨[],x::items,arrived,rfl,rfl,⟨x,ok x (by simp),beginning,?_⟩,?_⟩
      · intro whole
        exact inside (whole ▸ List.prefix_refl _)
      · rw [List.flatMap_cons,List.append_assoc]
        exact stream

variable {σ δ ο : Type*}

/-- The rule for receivers. `Holds s rest` says that the receiver has kept `rest`; with
what it kept and the next piece it handles the whole items and keeps the part behind them. -/
theorem replay_items (free : PrefixFree encode Ok) (step : σ → δ → σ × List ο) (bytes : δ → List β) (emit : α → ο)
    (Holds : σ → List β → Prop)
    (takes : ∀ s d rest (done : List α) part, Holds s rest → (∀ x ∈ done, Ok x) → Part encode Ok part →
      rest ++ bytes d = done.flatMap encode ++ part → Holds (step s d).1 part ∧ (step s d).2 = done.map emit)
    (s : σ) (pieces : List δ) (items : List α) (ok : ∀ x ∈ items, Ok x) {rest tail : List β} (kept : Holds s rest)
    (restPart : Part encode Ok rest) (part : Part encode Ok tail)
    (stream : rest ++ pieces.flatMap bytes = items.flatMap encode ++ tail) :
    Holds (replay step s pieces).1 tail ∧ (replay step s pieces).2 = items.map emit := by
  induction pieces generalizing s items rest with
  | nil =>
    -- nothing more arrives, and no whole item is left in a part
    rw [List.flatMap_nil,List.append_nil] at stream
    cases items with
    | nil =>
      rw [List.flatMap_nil,List.nil_append] at stream
      exact ⟨stream ▸ kept,rfl⟩
    | cons x items =>
      refine absurd ?_ (restPart.no_item free (ok x (by simp)))
      rw [stream,List.flatMap_cons,List.append_assoc]
      exact List.prefix_append _ _
  | cons d pieces ih =>
    rw [List.flatMap_cons,← List.append_assoc] at stream
    obtain ⟨done,left,behind,rfl,split,behindPart,same⟩ := split_prefix items ok part stream
    have okDone : ∀ x ∈ done, Ok x := fun x member => ok x (List.mem_append_left _ member)
    have okLeft : ∀ x ∈ left, Ok x := fun x member => ok x (List.mem_append_right _ member)
    obtain ⟨holds,out⟩ := takes s d rest done behind kept okDone behindPart split
    obtain ⟨last,outs⟩ := ih (step s d).1 left okLeft holds behindPart same
    rw [replay_cons]
    refine ⟨last,?_⟩
    rw [out,outs,List.map_append]

end WarpLoop.Lib.Framing

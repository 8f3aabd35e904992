/-
# First in, first out, over a history

A system records what it does, newest first; `ins` and `out` say which records put
an item in and which take one out.  `Fifo line hist` says that the items taken out
are the first of those put in, in their order, and that `line` is what is left of
them: it is kept when an item is put in at the end of the line (`Fifo.insert`) and
when the head of the line is taken out (`Fifo.remove`), and it bounds what was taken
out by what was put in (`Fifo.isPrefix`).
-/

import Mathlib.Data.List.Basic

namespace Fifo

variable {α β : Type*}

/-- The items of the records that `f` picks, in the order in which they were made. -/
def items (f : β → Option α) (hist : List β) : List α := (hist.filterMap f).reverse

variable {f : β → Option α} {o : β} {hist : List β} {x : α}

@[simp] theorem items_nil : items f [] = [] := rfl

theorem items_cons_none (h : f o = none) : items f (o :: hist) = items f hist := by
  rw [items, List.filterMap_cons_none h, items]

theorem items_cons_some (h : f o = some x) : items f (o :: hist) = items f hist ++ [x] := by
  rw [items, List.filterMap_cons_some h, List.reverse_cons, items]

/-- What was recorded later comes later. -/
theorem items_append (new hist : List β) : items f (new ++ hist) = items f hist ++ items f new := by
  rw [items, List.filterMap_append, List.reverse_append, items, items]

end Fifo

variable {α β : Type*} {ins out : β → Option α} {o : β} {hist : List β} {line : List α} {x : α}

/-- What was taken out and then what is in line is what was put in. -/
def Fifo (ins out : β → Option α) (line : List α) (hist : List β) : Prop :=
  Fifo.items out hist ++ line = Fifo.items ins hist

namespace Fifo

theorem nil : Fifo ins out [] [] := rfl

/-- A record of something else. -/
theorem skip (h : Fifo ins out line hist) (hi : ins o = none) (ho : out o = none) :
    Fifo ins out line (o :: hist) := by
  rw [Fifo, items_cons_none hi, items_cons_none ho]
  exact h

/-- An item is put in at the end of the line. -/
theorem insert (h : Fifo ins out line hist) (hi : ins o = some x) (ho : out o = none) :
    Fifo ins out (line ++ [x]) (o :: hist) := by
  rw [Fifo, items_cons_some hi, items_cons_none ho, ← List.append_assoc]
  exact congrArg (· ++ [x]) h

/-- The head of the line is taken out. -/
theorem remove (h : Fifo ins out (x :: line) hist) (hi : ins o = none) (ho : out o = some x) :
    Fifo ins out line (o :: hist) := by
  rw [Fifo, items_cons_none hi, items_cons_some ho, List.append_assoc]
  exact h

/-- **In order.**  The items taken out are the first of those put in. -/
theorem isPrefix (h : Fifo ins out line hist) : items out hist <+: items ins hist := ⟨line, h⟩

end Fifo

/-
# What the logger sends

`logger_print` and `log_ltos` of `posix/logger.c` on the memory from `buf` on, its
`LOGGER_MAX_BUF` bytes and what lies behind them.  `snprintf` and `vsnprintf` cut their output
off at the end of the buffer and return the length that it would have had, and that many bytes
are sent.  So a message is sent as it is up to 127 bytes with its level; a longer one is cut off
there, and followed by the `NUL` at the end of the buffer and by the memory behind it
(`loggerPrint_sends`).

What the format makes of its arguments is an input, `none` where `vsnprintf` returns `-1`.
-/

import Mathlib.Data.List.Basic
import Mathlib.Data.Int.Notation
import Mathlib.Data.Nat.Notation

namespace EdpIo

/-- `LOGGER_MAX_BUF`. -/
def loggerMaxBuf : ℕ := 128

/-- `__log_ltos`, by level; the last is that of `LOGGER_UNKOWN`. -/
def logStrings : List String := ["FATAL", "ERROR", " WORN", " INFO", "DEBUG", "TRACE", "UNKOWN"]

/-- `log_ltos`. -/
def logLtos (level : ℤ) : List Char :=
  (if level > 5 ∨ level < 0 then logStrings.getD 6 "" else logStrings.getD level.toNat "").toList

/-- The character with the code `0`. -/
def nul : Char := Char.ofNat 0

/-- The memory after the characters `l` have been written from `a` on. -/
def store (mem : ℕ → Char) (a : ℕ) (l : List Char) : ℕ → Char := fun i =>
  if i < a then mem i else (l[i - a]?).getD (mem i)

/-- `snprintf(buf + a, size, ..)` whose output is `l`: the memory, and what it returns. -/
def snprintf (mem : ℕ → Char) (a size : ℕ) (l : List Char) : (ℕ → Char) × ℕ :=
  (if size = 0 then mem else store mem a (l.take (size - 1) ++ [nul]), l.length)

/-- The bytes of `send(log_sock, buf, size, 0)`. -/
def sendBuf (mem : ℕ → Char) (size : ℕ) : List Char := (List.range size).map mem

/-- `logger_print(level, fmt, ..)` where the format gives `out`: what is sent, if `log_init` is
set. -/
def loggerPrint (logInit : Bool) (level : ℤ) (out : Option (List Char)) (mem : ℕ → Char) :
    Option (List Char) :=
  if !logInit then none
  else
    let (mem, size) := snprintf mem 0 loggerMaxBuf (logLtos level ++ [':'])
    match out with
    | none => some (sendBuf mem (size - 1))
    | some l =>
      let (mem, n) := snprintf mem size (loggerMaxBuf - size) l
      some (sendBuf mem (size + n))

/-- The level and the message, as they should be sent. -/
def logText (level : ℤ) (msg : List Char) : List Char := logLtos level ++ ':' :: msg

theorem length_logLtos (level : ℤ) : (logLtos level).length ≤ 6 := by
  unfold logLtos
  split_ifs with h
  · decide
  · have hall : ∀ n < 6, (logStrings.getD n "").toList.length ≤ 6 := by decide
    exact hall level.toNat (by omega)

/-- The second string takes the place of the first one's `NUL`. -/
theorem store_store (mem : ℕ → Char) (l l' : List Char) (c : Char) :
    store (store mem 0 (l ++ [c])) l.length (l' ++ [c]) = store mem 0 (l ++ l' ++ [c]) := by
  funext i
  simp only [store, Nat.not_lt_zero, if_false, Nat.sub_zero, List.append_assoc]
  by_cases hi : i < l.length
  · rw [if_pos hi, List.getElem?_append_left hi, List.getElem?_append_left hi]
  · have hright : (l ++ (l' ++ [c]))[i]? = (l' ++ [c])[i - l.length]? :=
      List.getElem?_append_right (by omega)
    rw [if_neg hi, hright]
    cases hc : (l' ++ [c])[i - l.length]? with
    | some x => rfl
    | none =>
      -- behind both
      have hlen := List.getElem?_eq_none_iff.1 hc
      rw [List.length_append, List.length_singleton] at hlen
      rw [List.getElem?_eq_none (by simp; omega)]
      rfl

theorem store_of_lt (mem : ℕ → Char) {l : List Char} {i : ℕ} (h : i < l.length) :
    store mem 0 l i = l[i] := by
  simp [store, h]

theorem store_of_le (mem : ℕ → Char) {l : List Char} {i : ℕ} (h : l.length ≤ i) :
    store mem 0 l i = mem i := by
  simp [store, h]

/-- What is sent is what was written and, from there on, the memory behind it. -/
theorem sendBuf_store (mem : ℕ → Char) (l : List Char) (n : ℕ) :
    sendBuf (store mem 0 l) n = l.take n ++ (List.range' l.length (n - l.length)).map mem := by
  have hwritten : ∀ n ≤ l.length, (List.range n).map (store mem 0 l) = l.take n := by
    intro n hn
    refine List.ext_getElem (by simp [hn]) fun i hi hi' => ?_
    rw [List.getElem_map, List.getElem_range, List.getElem_take]
    exact store_of_lt mem _
  rcases Nat.le_total n l.length with hn | hn
  · rw [sendBuf, hwritten n hn, Nat.sub_eq_zero_of_le hn]
    simp
  · have hrange : List.range n = List.range l.length ++ List.range' l.length (n - l.length) := by
      have happend := List.range'_append_1 (s := 0) (m := l.length) (n := n - l.length)
      rw [Nat.zero_add, Nat.add_sub_cancel' hn] at happend
      rw [List.range_eq_range', List.range_eq_range', happend]
    rw [sendBuf, hrange, List.map_append, hwritten _ (Nat.le_refl _), List.take_length,
      List.take_of_length_le hn]
    congr 1
    refine List.map_congr_left fun i hi => store_of_le mem ?_
    exact (List.mem_range'_1.1 hi).1

/-- The two calls write the text as far as the buffer goes, and a `NUL`. -/
theorem loggerPrint_eq (level : ℤ) (msg : List Char) (mem : ℕ → Char) :
    loggerPrint true level (some msg) mem = some (sendBuf
      (store mem 0 ((logText level msg).take (loggerMaxBuf - 1) ++ [nul]))
      (logText level msg).length) := by
  have hlen := length_logLtos level
  obtain ⟨p, hp⟩ : ∃ p, logLtos level ++ [':'] = p := ⟨_, rfl⟩
  have hshort : p.length ≤ 7 := by
    rw [← hp, List.length_append, List.length_singleton]
    omega
  have htext : logText level msg = p ++ msg := by
    rw [← hp, List.append_assoc]
    rfl
  have htake : (p ++ msg).take 127 = p ++ msg.take (127 - p.length) := by
    rw [List.take_append, List.take_of_length_le (by omega)]
  have hcap : 128 - p.length - 1 = 127 - p.length := by omega
  have hroom : 128 - p.length ≠ 0 := by omega
  have hwhole : p.take (128 - 1) = p := List.take_of_length_le (by omega)
  simp only [loggerPrint, hp, htext, snprintf, loggerMaxBuf]
  rw [if_neg hroom, if_neg (show (128 : ℕ) ≠ 0 by decide), hwhole, hcap, store_store, ← htake,
    List.length_append]
  rfl

/-- **What `logger_print` sends**, for every level, message and memory. -/
theorem loggerPrint_sends (level : ℤ) (msg : List Char) (mem : ℕ → Char) :
    loggerPrint true level (some msg) mem =
      some (if (logText level msg).length < loggerMaxBuf then logText level msg
        else (logText level msg).take (loggerMaxBuf - 1) ++ nul ::
          (List.range' loggerMaxBuf ((logText level msg).length - loggerMaxBuf)).map mem) := by
  rw [loggerPrint_eq, sendBuf_store]
  congr 1
  generalize logText level msg = text
  show (text.take 127 ++ [nul]).take text.length ++ (List.range' (text.take 127 ++ [nul]).length
    (text.length - (text.take 127 ++ [nul]).length)).map mem = if text.length < 128 then text
      else text.take 127 ++ nul :: (List.range' 128 (text.length - 128)).map mem
  split_ifs with h
  · -- the `NUL` is not sent
    have hall : text.take 127 = text := List.take_of_length_le (by omega)
    simp [hall]
  · have hlen : (text.take 127 ++ [nul]).length = 128 := by
      rw [List.length_append, List.length_take, List.length_singleton]
      omega
    rw [hlen, List.take_of_length_le (by omega), List.append_assoc]
    rfl

end EdpIo

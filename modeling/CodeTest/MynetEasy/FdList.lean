import CodeTest.Foundations.Machine
import Mathlib.Data.Finset.Card
import Mathlib.Tactic

/-!
# A server that polls its clients

`mynet_easy.c`. The server keeps the descriptors of its clients in the first `flag` entries of
`fd_list`. In every pass of its loop it accepts at most one connection and then receives from the
entries one after the other, and closes those that have ended, that have failed, or that have sent
the text `close`.

What the kernel answers comes with a pass. It also knows which connections are open, and that state
is here next to the one of the program: a descriptor that is no open connection cannot be received
from. A function has no result where the code writes out of the range of an array.
-/

namespace CodeTest.MynetEasy

/-! ## The kernel -/

/-- The bytes of one call of `recv`, which has room for 4096 of them. -/
structure Received where
  bytes : List UInt8
  ne_nil : bytes ≠ []
  length_le : bytes.length ≤ 4096

/-- What `recv` returns: -1, 0, or a number of bytes. -/
inductive Answer
  | error
  | eof
  | data (received : Received)

/-- What the kernel answers in one pass: the new connection, if there is one, and for every entry of
the list what is received from it, provided that it is an open connection. -/
structure Pass where
  accepted : Option ℤ
  answers : ℕ → Answer

/-- The descriptors that the process has besides its clients: the standard streams, the socket that
it listens on, and perhaps some others. -/
structure Others where
  fds : Finset ℤ
  zero_mem : 0 ∈ fds
  card_le : fds.card + 1024 ≤ 2 ^ 15

/-! ## The program -/

/-- The array, the number of its entries that are in use, and the open connections. -/
structure PollServer where
  fdList : List ℤ
  flag : ℕ
  clients : Finset ℤ

/-- The conversion to `int16_t`. -/
def toInt16 (n : ℤ) : ℤ := n.bmod (2 ^ 16)

/-- `sizeof(int32_t)`. -/
def sizeofInt32 : ℕ := 4

/-- One step of the loop of `del_fdlist_element`, with its `flag`. -/
def delStep (n : ℤ) (state : List ℤ × ℕ) (i : ℕ) : List ℤ × ℕ :=
  let array := if state.2 = 1 then (state.1.set (i - 1) (state.1.getD i 0)).set i 0 else state.1
  (array, if array.getD i 0 = n then 1 else state.2)

/-- `del_fdlist_element`. The length is that of one element of the array, in elements. -/
def delFdlistElement (array : List ℤ) (n : ℤ) : List ℤ :=
  let len := sizeofInt32 / sizeofInt32
  ((List.range len).foldl (delStep n) (array, 0)).1

namespace PollServer

/-- The state when the loop begins. The array is allocated with 1024 elements, of which the first is
set to 0. -/
def init (heap : List ℤ) : PollServer := ⟨heap.set 0 0, 0, ∅⟩

/-- The call of `accept`, and the entry for the new connection. -/
def accept (s : PollServer) : Option ℤ → Option PollServer
  | none => some s
  | some fd =>
    if s.flag < s.fdList.length then
      some ⟨s.fdList.set s.flag fd, s.flag + 1, insert fd s.clients⟩
    else none

/-- `close_socket`. -/
def closeSocket (s : PollServer) (fd : ℤ) : PollServer :=
  { s with clients := s.clients.erase fd, fdList := delFdlistElement s.fdList fd }

/-- What follows the end of a connection. -/
def hangUp (s : PollServer) (fd : ℤ) : PollServer :=
  { s.closeSocket fd with flag := s.flag - 1 }

/-- The call of `recv`. -/
def recv (s : PollServer) (fd : ℤ) (answer : Answer) : Answer :=
  if fd ∈ s.clients then answer else .error

/-- `CLOSE`, the text `close` and the end of the line. -/
def closeText : List UInt8 := [99, 108, 111, 115, 101, 10]

/-- The comparison of the received bytes, up to the first zero, with `CLOSE`. -/
def isClose (bytes : List UInt8) : Bool := bytes.takeWhile (· ≠ 0) = closeText

/-- The loop over the list, for the entry `i`. Behind the received bytes a zero is written to the
buffer, which has 4096 elements. -/
def poll (s : PollServer) (i : ℕ) (answer : Answer) : Option PollServer := do
  let fd ← s.fdList[i]?
  let curFd := toInt16 fd
  if curFd ≤ 0 then return s
  match s.recv curFd answer with
  | .error => return s.hangUp curFd
  | .eof => return s.hangUp curFd
  | .data received =>
    if 4096 ≤ received.bytes.length then none
    else if isClose received.bytes then return s.hangUp curFd
    else return s

/-- The loop over the list from the entry `i` on. The number `flag` does not grow, so that there are
at most as many steps as it says at the beginning. -/
def scan (answers : ℕ → Answer) : ℕ → ℕ → PollServer → Option PollServer
  | 0, _, s => some s
  | fuel + 1, i, s =>
    if i < s.flag then do scan answers fuel (i + 1) (← s.poll i (answers i)) else some s

/-- One pass of the loop of `main`. -/
def step (s : PollServer) (e : Pass) : Option PollServer := do
  let s ← s.accept e.accepted
  scan e.answers s.flag 0 s

end PollServer

end CodeTest.MynetEasy

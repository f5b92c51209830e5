import Spinet.Echo.Server
import Spinet.Library.Circle

/-!
# A client and a server that echo

`example/echo/async/client.cpp` has the callbacks of the server, and begins with a write. Here it is
connected to the server: the bytes that one side sends are on their way to the other one, in both
directions, and each side's kernel may call `do_read` and `do_write` at any time. What arrives is a
beginning of what is on the way; the end of the stream comes after it, and only from a side that has
closed its socket.

The payload goes round. `exchange_goes_on` says that it never gets lost, as long as no system call
fails: something of it is always left, in the order around the circle, and there is always a byte
that can move. `exchange_iff` says when nothing of it is lost at all, and `exchange_order` what
follows for the bytes that the client gets back, in every run. -/

namespace Spinet.Echo

open Transition Circle
open Spinet.Stream (Memory)

/-- A side of an exchange. -/
inductive Side
  /-- The client. -/
  | client
  /-- The server. -/
  | server
deriving DecidableEq, Repr

/-- The other side. -/
def Side.other : Side → Side
  | .client => .server
  | .server => .client

/-- The connections of both sides, and the bytes on their way to each. -/
structure Exchange where
  /-- The connection of a side. -/
  ends : Side → Connection
  /-- The bytes on their way to a side. -/
  toward : Side → List UInt8

/-- Whether a system call can have this outcome at a side. -/
def Exchange.offers (x : Exchange) (i : Side) : Action → Bool
  | .doRead (.data bytes) => bytes.isPrefixOf (x.toward i)
  | .doRead .eof => (x.toward i).isEmpty && (x.ends i.other).sock.closed
  | _ => true

section
variable (buf : Side → ℕ)

/-- A step of one side: what it has received is no longer on its way, and what it has sent is. -/
def Exchange.step (x : Exchange) : Side × Action → Option (Exchange × List (Side × Event))
  | (i, a) =>
    if x.offers i a then
      match Echo.step (buf i) (x.ends i) a with
      | none => none
      | some (s, es) =>
        let toward := Function.update x.toward i ((x.toward i).drop (receivedBytes es).length)
        some (⟨Function.update x.ends i s,
          Function.update toward i.other (toward i.other ++ sentBytes es)⟩, es.map (Prod.mk i))
    else none

/-- The client and the server. -/
def exchange : Machine Exchange (Side × Action) (Side × Event) := ⟨Exchange.step buf⟩

/-- A client that has connected: the first write is submitted. -/
def connected (buf fd payloadSize : ℕ) (mem : Memory) : Connection :=
  ⟨((TcpSocket.new fd).asyncWriteSome buf payloadSize .write).2, mem⟩

/-- The connection has been made, and nothing is on its way. -/
def start (fd size : Side → ℕ) (mem : Side → Memory) : Config Exchange (Side × Event) where
  state :=
    { ends := fun
        | .client => connected (buf .client) (fd .client) (size .client) (mem .client)
        | .server => (accepted (buf .server) (fd .server) (size .server) (mem .server)).state
      toward := fun _ => [] }
  trace := []

end

/-! ## What a step does -/

variable {buf : Side → ℕ} {x x' : Exchange} {i : Side} {a : Action} {es : List (Side × Event)}

@[simp] theorem Side.other_ne (i : Side) : i.other ≠ i := by cases i <;> decide

@[simp] theorem Side.other_other (i : Side) : i.other.other = i := by cases i <;> rfl

/-- There are two sides. -/
theorem Side.forall {P : Side → Prop} (i : Side) (h : P i) (h' : P i.other) : ∀ j, P j := by
  intro j
  have hcases : j = i ∨ j = i.other := by cases i <;> cases j <;> decide
  rcases hcases with rfl | rfl
  · exact h
  · exact h'

/-- The operation of a connection has some bytes to move, or the connection is closed. -/
def Busy (buf : ℕ) (s : Connection) : Prop :=
  (∃ n, 0 < n ∧ (Reading buf s n ∨ Writing buf s n)) ∨ Closed s

theorem Busy.alternates {buf : ℕ} {s : Connection} (h : Busy buf s) : Alternates buf s := by
  rcases h with ⟨n, -, h⟩ | h
  · exact .inl ⟨n, h⟩
  · exact .inr h

/-- What is the same at both sides is the same. -/
theorem funext_sides {α : Type} {f g : Side → α} (h : f i = g i) (h' : f i.other = g i.other) :
    f = g := funext (Side.forall i h h')

/-- A step of an exchange is a step of one of its sides. -/
theorem step_side (hstep : x.step buf (i, a) = some (x', es)) :
    x.offers i a = true ∧ ∃ es', step (buf i) (x.ends i) a = some (x'.ends i, es') ∧
      es = es'.map (Prod.mk i) ∧ x'.ends i.other = x.ends i.other ∧
      x'.toward i = (x.toward i).drop (receivedBytes es').length ∧
      x'.toward i.other = x.toward i.other ++ sentBytes es' := by
  rw [Exchange.step] at hstep
  split at hstep
  case isFalse => cases hstep
  rename_i hoffers
  split at hstep
  case h_1 => cases hstep
  rename_i s es' hside
  simp only [Option.some.injEq, Prod.mk.injEq] at hstep
  obtain ⟨rfl, rfl⟩ := hstep
  have hne := Side.other_ne i
  dsimp only
  refine ⟨hoffers, es', ?_, rfl, ?_, ?_, ?_⟩
  · rwa [Function.update_self]
  · exact Function.update_of_ne hne ..
  · rw [Function.update_of_ne hne.symm, Function.update_self]
  · rw [Function.update_self, Function.update_of_ne hne]

/-- A step of a side is a step of the exchange, if the other side and what is on the way allow it.
-/
theorem exists_step {s : Connection} {es : List Event} (hoffers : x.offers i a = true)
    (hside : step (buf i) (x.ends i) a = some (s, es)) :
    ∃ x', x.step buf (i, a) = some (x', es.map (Prod.mk i)) := by
  rw [Exchange.step, if_pos hoffers, hside]
  exact ⟨_, rfl⟩

/-- Every step keeps both connections with one operation at most. -/
theorem alternates_step (h : ∀ i, Alternates (buf i) (x.ends i))
    (hstep : x.step buf (i, a) = some (x', es)) : ∀ i, Alternates (buf i) (x'.ends i) := by
  obtain ⟨-, es, hside, -, hother, -, -⟩ := step_side hstep
  exact Side.forall i (step_cases (h i) hside).1 (hother ▸ h _)

/-- What a side receives was on its way there. -/
theorem received_beginning {s : Connection} {es : List Event} (h : Alternates (buf i) (x.ends i))
    (hoffers : x.offers i a = true) (hside : step (buf i) (x.ends i) a = some (s, es)) :
    receivedBytes es <+: x.toward i := by
  rcases h with ⟨n, hreading | hwriting⟩ | hclosed
  · rcases step_reading hreading hside with
      ⟨bytes, rfl, -, -, rfl, -⟩ | ⟨-, ⟨rfl, -⟩ | ⟨-, rfl, -⟩⟩
    · simpa [receivedBytes] using List.isPrefixOf_iff_prefix.1 hoffers
    · exact List.nil_prefix
    · exact List.nil_prefix
  · rcases step_writing hwriting hside with ⟨k, -, -, -, rfl, -⟩ | ⟨-, ⟨rfl, -⟩ | ⟨-, rfl, -⟩⟩
    all_goals exact List.nil_prefix
  · obtain ⟨rfl, -⟩ := step_closed hclosed hside
    exact List.nil_prefix

/-- What a step of side `i` can do. -/
inductive Move (buf : Side → ℕ) (x : Exchange) (i : Side) (a : Action) (x' : Exchange) :
    List (Side × Event) → Prop
  /-- Bytes arrive, and are to be sent back. -/
  | received {n : ℕ} {bytes : List UInt8} (reading : Reading (buf i) (x.ends i) n)
      (ne : bytes ≠ []) (took : x.toward i = bytes ++ x'.toward i)
      (same : x'.toward i.other = x.toward i.other)
      (writing : Writing (buf i) (x'.ends i) bytes.length)
      (holds : (x'.ends i).mem.read (buf i) bytes.length = bytes) :
      Move buf x i a x' [(i, .received bytes)]
  /-- Bytes are sent, and as many are to be received. -/
  | sent {n k : ℕ} (writing : Writing (buf i) (x.ends i) n) (action : a = .doWrite (.accepted k))
      (pos : 0 < k) (le : k ≤ n) (same : x'.toward i = x.toward i)
      (put : x'.toward i.other = x.toward i.other ++ (x.ends i).mem.read (buf i) k)
      (reading : Reading (buf i) (x'.ends i) k) :
      Move buf x i a x' [(i, .sent ((x.ends i).mem.read (buf i) k))]
  /-- Nothing happens. -/
  | idle (same : x' = x)
      (none : ∀ n, Writing (buf i) (x.ends i) n → ∀ k, a ≠ .doWrite (.accepted k)) :
      Move buf x i a x' []
  /-- The socket is closed. -/
  | closed (fails : a.fails = true) (same : x'.toward = x.toward) (closed : Closed (x'.ends i)) :
      Move buf x i a x' [(i, .closed)]

/-- Every step is such a move. -/
theorem move_of_step (h : Alternates (buf i) (x.ends i))
    (hstep : x.step buf (i, a) = some (x', es)) : Move buf x i a x' es := by
  obtain ⟨hoffers, es, hside, rfl, hother, htoward, htowardOther⟩ := step_side hstep
  have hprefix := received_beginning h hoffers hside
  -- A step that moves no bytes leaves what is on the way as it is.
  have hsame : receivedBytes es = [] → sentBytes es = [] → x'.toward = x.toward := by
    intro hreceived hsent
    rw [hreceived, List.length_nil, List.drop_zero] at htoward
    rw [hsent, List.append_nil] at htowardOther
    exact funext_sides htoward htowardOther
  have hidle : es = [] → x'.ends i = x.ends i → x' = x := by
    rintro rfl hends
    obtain ⟨ends, toward⟩ := x
    obtain ⟨ends', toward'⟩ := x'
    obtain rfl : toward' = toward := hsame rfl rfl
    obtain rfl : ends' = ends := funext_sides hends hother
    rfl
  rcases h with ⟨n, hreading | hwriting⟩ | hclosed
  · rcases step_reading hreading hside with
      ⟨bytes, rfl, hne, -, rfl, hwriting, hmem⟩ | ⟨-, ⟨rfl, hends⟩ | ⟨hfails, rfl, hclosed⟩⟩
    · simp only [receivedBytes, sentBytes, List.flatMap_cons, List.flatMap_nil,
        List.append_nil] at hprefix htoward htowardOther
      have htook : x.toward i = bytes ++ x'.toward i := by
        rw [htoward, List.prefix_iff_eq_append.1 hprefix]
      exact .received hreading hne htook htowardOther hwriting hmem
    · exact .idle (hidle rfl hends) fun m hwriting => absurd hwriting hreading.not_writing
    · exact .closed hfails (hsame rfl rfl) hclosed
  · rcases step_writing hwriting hside with
      ⟨k, rfl, hpos, hle, rfl, hreading⟩ | ⟨hnot, ⟨rfl, hends⟩ | ⟨hfails, rfl, hclosed⟩⟩
    · simp only [receivedBytes, sentBytes, List.flatMap_cons, List.flatMap_nil, List.append_nil,
        List.length_nil, List.drop_zero] at htoward htowardOther
      exact .sent hwriting rfl hpos hle htoward htowardOther hreading
    · exact .idle (hidle rfl hends) fun m _ => hnot
    · exact .closed hfails (hsame rfl rfl) hclosed
  · obtain ⟨rfl, hends⟩ := step_closed hclosed hside
    refine .idle (hidle rfl hends) fun m hwriting => ?_
    have hempty := hwriting.write
    rw [hclosed.write] at hempty
    cases hempty

/-- A side that has something to do has something to do after a step, or has closed its socket. -/
theorem Move.busy (hmove : Move buf x i a x' es) (h : Busy (buf i) (x.ends i)) :
    Busy (buf i) (x'.ends i) := by
  cases hmove with
  | received _ hne _ _ hwriting _ => exact .inl ⟨_, List.length_pos_iff.2 hne, .inr hwriting⟩
  | sent _ _ hpos _ _ _ hreading => exact .inl ⟨_, hpos, .inl hreading⟩
  | idle hsame _ => rwa [hsame]
  | closed _ _ hclosed => exact .inr hclosed

/-- No step opens a socket. -/
theorem Move.open_before (hmove : Move buf x i a x' es)
    (hopen : (x'.ends i).sock.closed = false) : (x.ends i).sock.closed = false := by
  cases hmove with
  | received hreading _ _ _ _ _ => exact hreading.isOpen
  | sent hwriting _ _ _ _ _ _ => exact hwriting.isOpen
  | idle hsame _ => rwa [← hsame]
  | closed _ _ hclosed => exact absurd (hclosed.isClosed.symm.trans hopen) Bool.noConfusion

/-- Only a failure closes a socket. -/
theorem Move.open_after (hmove : Move buf x i a x' es) (hfails : a.fails = false)
    (hopen : (x.ends i).sock.closed = false) : (x'.ends i).sock.closed = false := by
  cases hmove with
  | received _ _ _ _ hwriting _ => exact hwriting.isOpen
  | sent _ _ _ _ _ _ hreading => exact hreading.isOpen
  | idle hsame _ => rwa [hsame]
  | closed hfails' _ _ => exact absurd (hfails'.symm.trans hfails) Bool.noConfusion

/-! ## What goes round -/

/-- What goes round, from the byte on that side `i` receives next: what is on its way there, what
the other side is to send, what is on its way to the other side, and what side `i` is to send. -/
def Exchange.ring (buf : Side → ℕ) (x : Exchange) (i : Side) : List UInt8 :=
  (x.toward i ++ unsent (buf i.other) (x.ends i.other)) ++
    (x.toward i.other ++ unsent (buf i) (x.ends i))

/-- Both sockets are open. -/
def Exchange.Open (x : Exchange) : Prop := ∀ i, (x.ends i).sock.closed = false

/-- From both sides the same goes round. -/
theorem isRotated_ring (i j : Side) : List.IsRotated (x.ring buf i) (x.ring buf j) := by
  refine Side.forall (P := fun j => List.IsRotated (x.ring buf i) (x.ring buf j)) i (.refl _) ?_ j
  rw [Exchange.ring, Exchange.ring, Side.other_other]
  exact List.isRotated_append

/-- What goes round moves on, or a short write loses a part of it, but never everything. -/
theorem Move.ring (hmove : Move buf x i a x' es) (hother : x'.ends i.other = x.ends i.other)
    (hopen : (x'.ends i).sock.closed = false) :
    (List.IsRotated (x'.ring buf i) (x.ring buf i) ∧
      ∀ n, Writing (buf i) (x.ends i) n → ∀ k, a = .doWrite (.accepted k) → k = n) ∨
      ∃ k n, a = .doWrite (.accepted k) ∧ k < n ∧ Writing (buf i) (x.ends i) n ∧
        (x'.ring buf i).Sublist (x.ring buf i) ∧ x'.ring buf i ≠ [] ∧
        (x'.ring buf i).length < (x.ring buf i).length := by
  cases hmove with
  | @received n bytes hreading hne htook hsame hwriting hholds =>
    refine .inl ⟨?_, fun m hwriting' => absurd hwriting' hreading.not_writing⟩
    have hring : x.ring buf i = bytes ++
        (x'.toward i ++ unsent (buf i.other) (x.ends i.other) ++ x.toward i.other) := by
      simp only [Exchange.ring, htook, hreading.unsent, List.append_nil, List.append_assoc]
    have hring' : x'.ring buf i =
        (x'.toward i ++ unsent (buf i.other) (x.ends i.other) ++ x.toward i.other) ++ bytes := by
      simp only [Exchange.ring, hother, hsame, hwriting.unsent, hholds, List.append_assoc]
    rw [hring, hring']
    exact List.isRotated_append
  | @sent n k hwriting haction hpos hle hsame hput hreading =>
    rcases Nat.lt_or_eq_of_le hle with hlt | rfl
    · have hprefix := read_prefix (x.ends i).mem (buf i) hle
      refine .inr ⟨k, n, haction, hlt, hwriting, ?_, ?_, ?_⟩
      · simp only [Exchange.ring, hother, hsame, hput, hreading.unsent, hwriting.unsent,
          List.append_nil]
        exact (List.Sublist.refl _).append ((List.Sublist.refl _).append hprefix.sublist)
      · intro hempty
        have hlength := congrArg List.length hempty
        simp only [Exchange.ring, hput, List.length_append, Stream.Memory.length_read,
          List.length_nil] at hlength
        omega
      · simp only [Exchange.ring, hother, hsame, hput, hreading.unsent, hwriting.unsent,
          List.append_nil, List.length_append, Stream.Memory.length_read]
        omega
    · refine .inl ⟨?_, fun m hwriting' k' haction' => ?_⟩
      swap
      · cases haction.symm.trans haction'
        exact hwriting.unique hwriting'
      simp only [Exchange.ring, hother, hsame, hput, hreading.unsent, hwriting.unsent,
        List.append_nil]
      exact .refl _
  | idle hsame hnone =>
    exact .inl ⟨hsame ▸ .refl _, fun n hwriting k haction => absurd haction (hnone n hwriting k)⟩
  | closed _ _ hclosed => exact absurd (hclosed.isClosed.symm.trans hopen) Bool.noConfusion

/-- The bytes that an event moves. -/
def Event.bytes : Event → List UInt8
  | .received bytes => bytes
  | .sent bytes => bytes
  | .closed => []

/-- A write can move all its bytes. -/
theorem exists_send {n : ℕ} (h : Writing (buf i) (x.ends i) n) (hpos : 0 < n) :
    ∃ a x' e, x.step buf (i, a) = some (x', [(i, e)]) ∧ e.bytes ≠ [] := by
  have hfits : (Stream.SendOutcome.accepted n).fits n = true := by
    simp only [Stream.SendOutcome.fits, decide_eq_true_eq]
    omega
  obtain ⟨⟨s, es⟩, hside⟩ : ∃ r, step (buf i) (x.ends i) (.doWrite (.accepted n)) = some r := by
    simp [step, h.write, Task.new, hfits]
  obtain ⟨x', hstep⟩ := exists_step rfl hside
  rcases step_writing h hside with ⟨k, -, hk, -, rfl, -⟩ | ⟨hnot, -⟩
  · refine ⟨_, x', _, hstep, fun hempty => ?_⟩
    have hlength := congrArg List.length hempty
    simp only [Event.bytes, Stream.Memory.length_read, List.length_nil] at hlength
    omega
  · exact absurd rfl (hnot n)

/-- A read can move a byte that is on its way. -/
theorem exists_receive {n : ℕ} (h : Reading (buf i) (x.ends i) n) (hpos : 0 < n)
    (hne : x.toward i ≠ []) :
    ∃ a x' e, x.step buf (i, a) = some (x', [(i, e)]) ∧ e.bytes ≠ [] := by
  obtain ⟨b, rest, hb⟩ := List.exists_cons_of_ne_nil hne
  have hoffers : x.offers i (.doRead (.data [b])) = true := by
    rw [Exchange.offers, hb]
    simp
  have hfits : (Stream.RecvOutcome.data [b]).fits n = true := by
    simp only [Stream.RecvOutcome.fits, List.length_singleton, decide_eq_true_eq]
    omega
  obtain ⟨⟨s, es⟩, hside⟩ : ∃ r, step (buf i) (x.ends i) (.doRead (.data [b])) = some r := by
    simp [step, h.read, Task.new, hfits]
  obtain ⟨x', hstep⟩ := exists_step hoffers hside
  rcases step_reading h hside with ⟨bytes, -, hbytes, -, rfl, -⟩ | ⟨hnot, -⟩
  · exact ⟨_, x', _, hstep, hbytes⟩
  · exact absurd rfl (hnot [b])

/-- As long as something goes round, a byte can move: a side that is to send has it, or both are to
receive, and it is on its way to one of them. -/
theorem exists_move (hopen : x.Open) (hbusy : ∀ i, Busy (buf i) (x.ends i))
    (hring : x.ring buf .client ≠ []) :
    ∃ i a x' e, x.step buf (i, a) = some (x', [(i, e)]) ∧ e.bytes ≠ [] := by
  have hsides : ∀ i, ∃ n, 0 < n ∧ (Reading (buf i) (x.ends i) n ∨ Writing (buf i) (x.ends i) n) :=
    fun i => (hbusy i).resolve_right fun h => Bool.noConfusion (h.isClosed.symm.trans (hopen i))
  obtain ⟨m, hm, hclient | hclient⟩ := hsides .client
  · obtain ⟨n, hn, hserver | hserver⟩ := hsides .server
    · by_cases hempty : x.toward .client = []
      · refine ⟨.server, exists_receive hserver hn fun hempty' => hring ?_⟩
        rw [Exchange.ring, hempty, hclient.unsent, Side.other, hempty', hserver.unsent]
        rfl
      · exact ⟨.client, exists_receive hclient hm hempty⟩
    · exact ⟨.server, exists_send hserver hn⟩
  · exact ⟨.client, exists_send hclient hm⟩

/-! ## Runs -/

/-- No system call gives an error. The end of the stream is none. -/
def Untroubled (_ : Config Exchange (Side × Event)) (a : Side × Action) : Prop :=
  a.2.fails = true → a.2 = .doRead .eof

/-- A write moves all that it is given, if it moves anything while both sockets are open. -/
def Whole (c : Config Exchange (Side × Event)) (a : Side × Action) : Prop :=
  c.state.Open → ∀ k, a.2 = .doWrite (.accepted k) →
    ∀ e ∈ ((c.state.ends a.1).sock.queue .write).head?, k = e.1.size

section
variable {fd size : Side → ℕ} {mem : Side → Memory} {c : Config Exchange (Side × Event)}

/-- The bytes that the client sends first. -/
def payload (buf size : Side → ℕ) (mem : Side → Memory) : List UInt8 :=
  (mem .client).read (buf .client) (size .client)

/-- At the start the client writes. -/
theorem writing_start (buf fd size : Side → ℕ) (mem : Side → Memory) :
    Writing (buf .client) ((start buf fd size mem).state.ends .client) (size .client) :=
  ⟨rfl, rfl, rfl⟩

/-- At the start the server reads. -/
theorem reading_start (buf fd size : Side → ℕ) (mem : Side → Memory) :
    Reading (buf .server) ((start buf fd size mem).state.ends .server) (size .server) :=
  ⟨rfl, rfl, rfl⟩

/-- At the start the payload is what goes round. -/
theorem ring_start (buf fd size : Side → ℕ) (mem : Side → Memory) :
    (start buf fd size mem).state.ring buf .client = payload buf size mem := by
  have hserver := (reading_start buf fd size mem).unsent
  have hclient := (writing_start buf fd size mem).unsent
  rw [Exchange.ring, Side.other, hserver, hclient]
  rfl

/-- At the start both sides have an operation. -/
theorem alternates_start (buf fd size : Side → ℕ) (mem : Side → Memory) (i : Side) :
    Alternates (buf i) ((start buf fd size mem).state.ends i) := by
  cases i with
  | client => exact .inl ⟨_, .inr (writing_start buf fd size mem)⟩
  | server => exact .inl ⟨_, .inl (reading_start buf fd size mem)⟩

/-- As long as no system call gives an error, both sockets stay open, the payload goes round, with
some bytes left out but never all, and there is a byte that can move. -/
theorem exchange_goes_on (hsize : ∀ i, 0 < size i)
    (h : ReachVia (exchange buf) Untroubled (start buf fd size mem) c) :
    c.state.Open ∧ c.state.ring buf .client ≠ [] ∧
      Within (c.state.ring buf .client) (payload buf size mem) ∧
      ∃ i a e c', next (exchange buf) c (i, a) = some c' ∧ c'.trace = c.trace ++ [(i, e)] ∧
        e.bytes ≠ [] := by
  have hinv : (c.state.Open ∧ ∀ i, Busy (buf i) (c.state.ends i)) ∧
      c.state.ring buf .client ≠ [] ∧
      Within (c.state.ring buf .client) (payload buf size mem) := by
    refine h.invariant_step (I := fun x _ => (x.Open ∧ ∀ i, Busy (buf i) (x.ends i)) ∧
      x.ring buf .client ≠ [] ∧ Within (x.ring buf .client) (payload buf size mem)) ?_ ?_
    · refine ⟨⟨fun i => ?_, fun i => ?_⟩, ?_, ?_⟩
      · cases i <;> rfl
      · cases i with
        | client => exact .inl ⟨_, hsize _, .inr (writing_start buf fd size mem)⟩
        | server => exact .inl ⟨_, hsize _, .inl (reading_start buf fd size mem)⟩
      · intro hempty
        have hlength := congrArg List.length hempty
        rw [ring_start, payload, Stream.Memory.length_read] at hlength
        exact Nat.ne_of_gt (hsize .client) hlength
      · rw [ring_start]
        exact within_self _
    · rintro x tr ⟨i, a⟩ x' es ⟨⟨hopen, hbusy⟩, hne, hwithin⟩ huntroubled hstep
      obtain ⟨hoffers, -, -, -, hother, -, -⟩ := step_side hstep
      have hmove := move_of_step (hbusy i).alternates hstep
      have hfails : a.fails = false := by
        by_contra hfails
        -- The other side has not closed its socket, so this is not the end of the stream.
        obtain rfl : a = .doRead .eof := huntroubled (by simpa using hfails)
        simp [Exchange.offers, hopen i.other] at hoffers
      have hopen' := hmove.open_after hfails (hopen i)
      refine ⟨⟨?_, ?_⟩, ?_⟩
      · exact Side.forall i hopen' (hother ▸ hopen _)
      · exact Side.forall i (hmove.busy (hbusy i)) (hother ▸ hbusy _)
      · rcases hmove.ring hother hopen' with ⟨hrot, -⟩ | ⟨-, -, -, -, -, hsub, hne', -⟩
        · have hrot' : List.IsRotated (x'.ring buf .client) (x.ring buf .client) :=
            (isRotated_ring _ i).trans (hrot.trans (isRotated_ring i _))
          refine ⟨fun hempty => hne ?_, hwithin.rotate hrot'⟩
          rw [hempty] at hrot'
          exact (List.isRotated_nil_iff'.1 hrot').symm
        · have hwithin' : Within (x'.ring buf i) (payload buf size mem) :=
            (hwithin.rotate (isRotated_ring i _)).sublist hsub
          refine ⟨fun hempty => hne' ?_, hwithin'.rotate (isRotated_ring _ i)⟩
          have hrot : List.IsRotated (x'.ring buf .client) (x'.ring buf i) := isRotated_ring _ _
          rw [hempty] at hrot
          exact (List.isRotated_nil_iff'.1 hrot).symm
  obtain ⟨⟨hopen, hbusy⟩, hne, hwithin⟩ := hinv
  refine ⟨hopen, hne, hwithin, ?_⟩
  obtain ⟨i, a, x', e, hstep, hbytes⟩ := exists_move hopen hbusy hne
  have hmachine : (exchange buf).step c.state (i, a) = some (x', [(i, e)]) := hstep
  exact ⟨i, a, e, ⟨x', c.trace ++ [(i, e)]⟩, by rw [next, hmachine]; rfl, rfl, hbytes⟩

/-- `exchange_goes_on`, where the server gets one byte of two before it writes. -/
theorem exchange_goes_on_short :
    ∃ c, run (exchange fun _ => 0) (start (fun _ => 0) (fun _ => 3) (fun _ => 2) fun _ _ => 0)
        [(.client, .doWrite (.accepted 2)), (.server, .doRead (.data [0]))] = some c ∧
      c.state.Open ∧ c.state.ring (fun _ => 0) .client ≠ [] ∧
        Within (c.state.ring (fun _ => 0) .client)
          (payload (fun _ => 0) (fun _ => 2) fun _ _ => 0) ∧
        ∃ i a e c', next (exchange fun _ => 0) c (i, a) = some c' ∧
          c'.trace = c.trace ++ [(i, e)] ∧ e.bytes ≠ [] :=
  ⟨_, rfl, exchange_goes_on (fun _ => Nat.succ_pos 1) (Steps.reachVia
    (show Steps _ _ _ [(.client, .doWrite (.accepted 2)), (.server, .doRead (.data [0]))] from
      .cons rfl (fun h => Bool.noConfusion h) (.cons rfl (fun h => Bool.noConfusion h) trivial))
    rfl)⟩

/-- While both sockets are open, the whole payload goes round. -/
def Unbroken (buf : Side → ℕ) (u : List UInt8) (c : Config Exchange (Side × Event)) : Prop :=
  c.state.Open → List.IsRotated (c.state.ring buf .client) u

/-- Along a run, the whole payload goes round as long as both sockets are open, if and only if every
write moves all that it is given. -/
theorem exchange_iff (buf fd size : Side → ℕ) (mem : Side → Memory) (as : List (Side × Action)) :
    Always (exchange buf) (Unbroken buf (payload buf size mem)) (start buf fd size mem) as ↔
      Steps (exchange buf) Whole (start buf fd size mem) as := by
  -- What a step does to the ring and to the sockets.
  have hring : ∀ c a c', (∀ i, Alternates (buf i) (c.state.ends i)) →
      next (exchange buf) c a = some c' →
      (∀ i, Alternates (buf i) (c'.state.ends i)) ∧ (c'.state.Open → c.state.Open) ∧
        ∃ es, Move buf c.state a.1 a.2 c'.state es ∧
          c'.state.ends a.1.other = c.state.ends a.1.other := by
    rintro c ⟨i, a⟩ c' halternates hn
    obtain ⟨x', es, hmachine, rfl⟩ := next_eq_some _ hn
    have hstep : c.state.step buf (i, a) = some (x', es) := hmachine
    obtain ⟨-, -, -, -, hother, -, -⟩ := step_side hstep
    have hmove := move_of_step (halternates i) hstep
    refine ⟨alternates_step halternates hstep, fun hopen => ?_, es, hmove, hother⟩
    exact Side.forall i (hmove.open_before (hopen i)) (hother ▸ hopen _)
  refine always_iff_steps (I := fun c => ∀ i, Alternates (buf i) (c.state.ends i)) ?_ ?_
    (alternates_start buf fd size mem) ?_
  · intro c a c' halternates hunbroken hwhole hn
    obtain ⟨halternates', hopen_before, es, hmove, hother⟩ := hring c a c' halternates hn
    refine ⟨halternates', fun hopen => ?_⟩
    rcases hmove.ring hother (hopen _) with ⟨hrot, -⟩ | ⟨k, n, haction, hlt, hwriting, -⟩
    · exact (isRotated_ring _ a.1).trans
        (hrot.trans ((isRotated_ring a.1 _).trans (hunbroken (hopen_before hopen))))
    · have hall := hwhole (hopen_before hopen) k haction (Task.new (buf a.1) n .TRY, .write)
        (by rw [hwriting.write]; rfl)
      exact absurd hall (Nat.ne_of_lt hlt)
  · intro c a c' halternates hunbroken hshort hn hunbroken'
    obtain ⟨-, -, es, hmove, hother⟩ := hring c a c' halternates hn
    rw [Whole] at hshort
    push Not at hshort
    obtain ⟨hopen, k, haction, e, he, hne⟩ := hshort
    obtain ⟨n, hwriting⟩ : ∃ n, Writing (buf a.1) (c.state.ends a.1) n := by
      rcases halternates a.1 with ⟨n, hreading | hwriting⟩ | hclosed
      · simp [hreading.write] at he
      · exact ⟨n, hwriting⟩
      · simp [hclosed.write] at he
    rw [hwriting.write] at he
    obtain rfl := Option.some.inj he
    have hopen' : c'.state.Open :=
      Side.forall a.1 (hmove.open_after (by rw [haction]; rfl) (hopen _)) (hother ▸ hopen _)
    rcases hmove.ring hother (hopen' _) with ⟨-, hall⟩ | ⟨-, -, -, -, -, -, -, hlt⟩
    · exact hne (hall n hwriting k haction)
    · -- Both rings would have the length of the payload.
      have hbefore := ((isRotated_ring a.1 _).trans (hunbroken hopen)).perm.length_eq
      have hafter := ((isRotated_ring a.1 _).trans (hunbroken' hopen')).perm.length_eq
      omega
  · intro _
    rw [ring_start]

/-! ## What comes back -/

/-- The events of a side. -/
def eventsOf (i : Side) (tr : List (Side × Event)) : List Event :=
  tr.filterMap fun e => if e.1 = i then some e.2 else none

theorem eventsOf_append (i : Side) (tr tr' : List (Side × Event)) :
    eventsOf i (tr ++ tr') = eventsOf i tr ++ eventsOf i tr' := List.filterMap_append

/-- All events of a step are of its side. -/
theorem eventsOf_map (i j : Side) (es : List Event) :
    eventsOf j (es.map (Prod.mk i)) = if i = j then es else [] := by
  rw [eventsOf, List.filterMap_map]
  by_cases h : i = j
  · simp [h]
  · simp [h]

/-- The bytes that a side has received. -/
def received (i : Side) (tr : List (Side × Event)) : List UInt8 := receivedBytes (eventsOf i tr)

/-- The bytes that a side has sent. -/
def sent (i : Side) (tr : List (Side × Event)) : List UInt8 := sentBytes (eventsOf i tr)

/-- A step adds what its side has received. -/
theorem received_append (i j : Side) (tr : List (Side × Event)) (es : List Event) :
    received j (tr ++ es.map (Prod.mk i)) =
      received j tr ++ if i = j then receivedBytes es else [] := by
  rw [received, eventsOf_append, receivedBytes_append, eventsOf_map, apply_ite receivedBytes]
  rfl

/-- A step adds what its side has sent. -/
theorem sent_append (i j : Side) (tr : List (Side × Event)) (es : List Event) :
    sent j (tr ++ es.map (Prod.mk i)) = sent j tr ++ if i = j then sentBytes es else [] := by
  rw [sent, eventsOf_append, sentBytes_append, eventsOf_map, apply_ite sentBytes]
  rfl

/-- What a side sends without having received anything, if the client begins with `u`. -/
def first (u : List UInt8) : Side → List UInt8
  | .client => u
  | .server => []

/-- How the bytes flow from one side to the other. -/
structure Flows (buf : Side → ℕ) (u : List UInt8) (x : Exchange) (tr : List (Side × Event)) :
    Prop where
  /-- A side has one operation at most. -/
  alternates : ∀ i, Alternates (buf i) (x.ends i)
  /-- A side sends what it has received. -/
  echoes : ∀ i, (sent i tr ++ unsent (buf i) (x.ends i)).Sublist (first u i ++ received i tr)
  /-- What one side has sent has been received by the other, or is on its way. -/
  arrives : ∀ i, sent i.other tr = received i tr ++ x.toward i

/-- So the bytes flow from the start. -/
theorem flows_start (buf fd size : Side → ℕ) (mem : Side → Memory) :
    Flows buf (payload buf size mem) (start buf fd size mem).state [] where
  alternates := alternates_start buf fd size mem
  echoes i := by
    cases i with
    | client =>
      rw [(writing_start buf fd size mem).unsent]
      change (payload buf size mem).Sublist (payload buf size mem ++ [])
      rw [List.append_nil]
    | server =>
      rw [(reading_start buf fd size mem).unsent]
      exact .refl _
  arrives i := by cases i <;> rfl

/-- So they flow on with every step. -/
theorem Flows.step {u : List UInt8} {tr : List (Side × Event)} (h : Flows buf u x tr)
    (hstep : x.step buf (i, a) = some (x', es)) : Flows buf u x' (tr ++ es) := by
  have halternates := alternates_step h.alternates hstep
  obtain ⟨hoffers, es, hside, rfl, hother, htoward, htowardOther⟩ := step_side hstep
  have htook : x.toward i = receivedBytes es ++ x'.toward i := by
    rw [htoward, List.prefix_iff_eq_append.1 (received_beginning (h.alternates i) hoffers hside)]
  have hne := (Side.other_ne i).symm
  refine ⟨halternates, Side.forall i ?_ ?_, Side.forall i ?_ ?_⟩
  · rw [received_append, sent_append, if_pos rfl, if_pos rfl, ← List.append_assoc]
    exact sublist_step (h.alternates i) hside (h.echoes i)
  · rw [received_append, sent_append, if_neg hne, if_neg hne, hother, List.append_nil,
      List.append_nil]
    exact h.echoes i.other
  · rw [received_append, sent_append, if_neg hne, if_pos rfl, List.append_nil, h.arrives, htook,
      List.append_assoc]
  · have harrives := h.arrives i.other
    rw [Side.other_other] at harrives ⊢
    rw [received_append, sent_append, if_pos rfl, if_neg hne, htowardOther, harrives,
      List.append_nil, List.append_assoc]

/-- In every run, the client gets back some of the bytes that it has sent, in the same order and
none twice; it sends nothing but the payload and what it has got back; and of all the bytes that
are moved, no fewer than a quarter reach the client, but for three payloads. -/
theorem exchange_order (h : Reachable (exchange buf) (start buf fd size mem) c) :
    (received .client c.trace).Sublist (sent .client c.trace) ∧
      (sent .client c.trace).Sublist (payload buf size mem ++ received .client c.trace) ∧
      (sent .client c.trace).length + (received .server c.trace).length +
        (sent .server c.trace).length + (received .client c.trace).length ≤
          4 * (received .client c.trace).length + 3 * (payload buf size mem).length := by
  have hflows : Flows buf (payload buf size mem) c.state c.trace := by
    refine h.invariant_step (I := Flows buf (payload buf size mem)) (flows_start ..) ?_
    rintro x tr ⟨i, a⟩ x' es hflows - hstep
    exact hflows.step hstep
  have hsent : ∀ i, (sent i c.trace).Sublist
      (first (payload buf size mem) i ++ received i c.trace) :=
    fun i => (List.sublist_append_left ..).trans (hflows.echoes i)
  have hreceived : ∀ i, (received i c.trace).Sublist (sent i.other c.trace) :=
    fun i => hflows.arrives i ▸ List.sublist_append_left ..
  refine ⟨(hreceived .client).trans ((hsent .server).trans (hreceived .server)), hsent .client, ?_⟩
  have hclient := (hsent .client).length_le
  have hserver := (hsent .server).length_le
  have hto_server := (hreceived .server).length_le
  simp only [first, Side.other, List.nil_append, List.length_append] at hclient hserver hto_server
  omega

/-- `exchange_order`, where the client gets back one byte of three. -/
theorem exchange_order_short :
    ∃ c, run (exchange fun _ => 0) (start (fun _ => 0) (fun _ => 3) (fun _ => 3) fun _ => .ofNat)
        [(.client, .doWrite (.accepted 3)), (.server, .doRead (.data [0, 1])),
          (.server, .doWrite (.accepted 1)), (.client, .doRead (.data [0]))] = some c ∧
      (received .client c.trace).Sublist (sent .client c.trace) ∧
        (sent .client c.trace).Sublist
          (payload (fun _ => 0) (fun _ => 3) (fun _ => .ofNat) ++ received .client c.trace) ∧
        (sent .client c.trace).length + (received .server c.trace).length +
          (sent .server c.trace).length + (received .client c.trace).length ≤
            4 * (received .client c.trace).length +
              3 * (payload (fun _ => 0) (fun _ => 3) fun _ => .ofNat).length :=
  ⟨_, rfl, exchange_order (reachable_of_run (show run _ _
    [(.client, .doWrite (.accepted 3)), (.server, .doRead (.data [0, 1])),
      (.server, .doWrite (.accepted 1)), (.client, .doRead (.data [0]))] = some _ from rfl))⟩

end

end Spinet.Echo

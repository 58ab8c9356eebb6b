import Mathlib.Data.List.Forall2
import MachineEmulator.HttpsProxy.DnsResponse

/-!
# The two transports of the name server

Datagrams are received in one buffer that is never cleared. Each connection has a session with its own buffer, which
reads one message behind its length, answers it, and reads no further.

* `UdpServer.receive`, `TcpSession.receiveByte`, `TcpServer.step` : what the servers do when something arrives;
* `buildDnsResponse_congr` : the response depends on the bytes of the query only, if these include the header;
* `TcpServer.repliesOn_run` : what is sent over a connection is what its session sends, whatever happens on the others;
* `transportsAgree_iff` : both transports answer alike if and only if the message has a header, or would not be answered
  if zeros were appended to it.
-/

namespace MachineEmulator.HttpsProxy

open Dns List Option Function

/-! ## Datagrams -/

structure UdpServer where
  recvBuffer : Nat → Byte
  responseIp : BitVec 32

/-- A receive that fails may leave some bytes in the buffer. -/
inductive UdpEvent where
  | received (datagram : List Byte)
  | failed (bytes : List Byte)

namespace UdpServer

def start (responseIp : BitVec 32) : UdpServer := ⟨fun _ => 0, responseIp⟩

/-- The datagrams that are sent for the query in the buffer. -/
def handleQuery (s : UdpServer) (length : Nat) : List (List Byte) :=
  let response := buildDnsResponse s.recvBuffer length s.responseIp
  if response = [] then [] else [response]

/-- A datagram is cut to the size of the buffer. -/
def receive (s : UdpServer) : UdpEvent → UdpServer × List (List Byte)
  | .received datagram =>
    let received := datagram.take 512
    let s' := { s with recvBuffer := writeBytes s.recvBuffer 0 received }
    (s', if 12 ≤ received.length then s'.handleQuery received.length else [])
  | .failed bytes => ({ s with recvBuffer := writeBytes s.recvBuffer 0 (bytes.take 512) }, [])

def run (s : UdpServer) (traffic : List UdpEvent) : UdpServer := traffic.foldl (fun s e => (s.receive e).1) s

end UdpServer

/-! ## Connections -/

inductive TcpRead where
  | length
  | message (length : Nat)
  | closed
deriving DecidableEq, Repr

/-- A session, and how many bytes the read in progress has so far. -/
structure TcpSession where
  recvBuffer : Nat → Byte
  responseIp : BitVec 32
  read : TcpRead
  filled : Nat

variable (s : TcpSession) (ip : BitVec 32)

namespace TcpSession

def start (responseIp : BitVec 32) : TcpSession := ⟨fun _ => 0, responseIp, .length, 0⟩

/-- What is written to the connection for the query in the buffer. -/
def handleQuery (length : Nat) : List (List Byte) :=
  let response := buildDnsResponse (fun i => s.recvBuffer (2 + i)) length s.responseIp
  if response = [] then []
  else
    let responseLength := BitVec.ofNat 16 response.length
    [(responseLength >>> 8).setWidth 8 :: responseLength.setWidth 8 :: response]

/-- A read of no bytes is complete at once. -/
def doReadMessage (length : Nat) : TcpSession × List (List Byte) :=
  if length = 0 then ({ s with read := .closed }, s.handleQuery 0)
  else ({ s with read := .message length, filled := 0 }, [])

def receiveByte (b : Byte) : TcpSession × List (List Byte) :=
  match s.read with
  | .length =>
    let s' := { s with recvBuffer := writeBytes s.recvBuffer s.filled [b], filled := s.filled + 1 }
    if s'.filled = 2 then
      let msgLength := (word16 (s'.recvBuffer 0) (s'.recvBuffer 1)).toNat
      if 512 < msgLength then ({ s' with read := .closed }, []) else s'.doReadMessage msgLength
    else (s', [])
  | .message length =>
    let s' := { s with recvBuffer := writeBytes s.recvBuffer (2 + s.filled) [b], filled := s.filled + 1 }
    if s'.filled = length then ({ s' with read := .closed }, s'.handleQuery length) else (s', [])
  | .closed => (s, [])

/-- The bytes that arrive, one after the other, and what is written in turn. -/
def receive : TcpSession → List Byte → TcpSession × List (List Byte)
  | s, [] => (s, [])
  | s, b :: bs =>
    let (s', sent) := s.receiveByte b
    let (s'', sent') := receive s' bs
    (s'', sent ++ sent')

end TcpSession

/-- The sessions of the connections that are open. -/
structure TcpServer where
  sessions : Nat → Option TcpSession
  responseIp : BitVec 32

inductive TcpEvent where
  | accepted (connection : Nat)
  | acceptFailed
  | received (connection : Nat) (bytes : List Byte)
  | failed (connection : Nat)
deriving DecidableEq

namespace TcpServer

def start (responseIp : BitVec 32) : TcpServer := ⟨fun _ => none, responseIp⟩

def setSession (s : TcpServer) (connection : Nat) (session : Option TcpSession) : TcpServer :=
  { s with sessions := Function.update s.sessions connection session }

/-- What is sent, each with its connection. -/
def step (s : TcpServer) : TcpEvent → TcpServer × List (Nat × List Byte)
  | .accepted c => (s.setSession c (some (.start s.responseIp)), [])
  | .acceptFailed => (s, [])
  | .received c bytes =>
    match s.sessions c with
    | some session =>
      let (session', sent) := session.receive bytes
      (s.setSession c (some session'), sent.map (c, ·))
    | none => (s, [])
  | .failed c => (s.setSession c none, [])

def run : TcpServer → List TcpEvent → TcpServer × List (Nat × List Byte)
  | s, [] => (s, [])
  | s, e :: es =>
    let (s', sent) := s.step e
    let (s'', sent') := run s' es
    (s'', sent ++ sent')

end TcpServer

def repliesOn (c : Nat) (sent : List (Nat × List Byte)) : List (List Byte) :=
  sent.filterMap fun r => if r.1 = c then some r.2 else none

/-- The bytes that arrive over a connection. -/
def bytesOn (c : Nat) : List TcpEvent → List Byte
  | [] => []
  | .received c' bytes :: es => if c' = c then bytes ++ bytesOn c es else bytesOn c es
  | _ :: es => bytesOn c es

/-! ## What a response depends on -/

section

variable {buf buf' : Nat → Byte} {length : Nat} {ip : BitVec 32}

theorem skipLabels_congr (h : ∀ i, i < length → buf i = buf' i) (fuel pos : Nat) :
    skipLabels buf length fuel pos = skipLabels buf' length fuel pos := by
  induction fuel generalizing pos with
  | zero => rfl
  | succ fuel ih =>
    unfold skipLabels
    by_cases hpos : pos < length
    · simp only [h pos hpos, ih]
    · simp [hpos]

theorem skipName_congr (h : ∀ i, i < length → buf i = buf' i) (pos : Nat) :
    skipName buf length pos = skipName buf' length pos := by
  unfold skipName
  rw [skipLabels_congr h]
  congr 1
  funext p
  by_cases hp : p < length
  · rw [h p hp]
  · simp [hp]

theorem copyQuestions_congr (h : ∀ i, i < length → buf i = buf' i) (n pos : Nat) (response : List Byte)
    (count : BitVec 16) :
    copyQuestions buf length ip n pos response count = copyQuestions buf' length ip n pos response count := by
  induction n generalizing pos response count with
  | zero => rfl
  | succ n ih =>
    unfold copyQuestions
    rw [skipName_congr h]
    split
    · split
      · rfl
      · rename_i p hp
        by_cases hle : length < p + 4
        · rw [if_pos hle, if_pos hle]
        · have hcopy : readBytes buf pos (p + 4 - pos) = readBytes buf' pos (p + 4 - pos) :=
            readBytes_congr fun i hi => h _ (by omega)
          rw [if_neg hle, if_neg hle, h p (by omega), h (p + 1) (by omega), h (p + 2) (by omega),
            h (p + 3) (by omega), hcopy]
          simp [ih]
    · rfl

/-- The builder reads the header before it looks at the length. A query with a header is answered by its own bytes. -/
theorem buildDnsResponse_congr (hlen : 12 ≤ length) (h : ∀ i, i < length → buf i = buf' i) :
    buildDnsResponse buf length ip = buildDnsResponse buf' length ip := by
  have hheader : responseHeader buf = responseHeader buf' := by
    unfold responseHeader
    rw [h 0 (by omega), h 1 (by omega), h 4 (by omega), h 5 (by omega)]
  unfold buildDnsResponse
  dsimp only
  rw [h 2 (by omega), h 3 (by omega), h 4 (by omega), h 5 (by omega), hheader, copyQuestions_congr h]

/-- Without a header, there is a response if the opcode and the number of questions found in the buffer allow it. -/
theorem buildDnsResponse_short (hlen : length < 12) :
    buildDnsResponse buf length ip = [] ↔ word16 (buf 2) (buf 3) &&& 0x7800 ≠ 0 ∨ questionCount buf = 0 := by
  have hcopy (n : Nat) : copyQuestions buf length ip n 12 (responseHeader buf) 0 = some (responseHeader buf, 0) := by
    cases n with
    | zero => rfl
    | succ n => rw [copyQuestions, if_neg (by omega)]
  have hcount : questionCount buf = 0 ↔ word16 (buf 4) (buf 5) = 0 := by
    rw [questionCount, ← BitVec.toNat_inj]
    rfl
  unfold buildDnsResponse
  dsimp only
  rw [hcount, hcopy]
  by_cases hskip : word16 (buf 2) (buf 3) &&& 0x7800 ≠ 0 ∨ word16 (buf 4) (buf 5) = 0
  · exact iff_of_true (if_pos hskip) hskip
  · rw [if_neg hskip]
    exact iff_of_false (fun h => cons_ne_nil _ _ h) hskip

/-! ## The length of a response -/

theorem le_skipLabels {fuel pos p : Nat} (h : skipLabels buf length fuel pos = some p) : pos ≤ p := by
  induction fuel generalizing pos with
  | zero => exact (some.inj h).le
  | succ fuel ih =>
    unfold skipLabels at h
    split at h
    · dsimp only at h
      split at h
      · have := some.inj h
        omega
      · split at h
        · cases h
        · have := ih h
          omega
    · exact (some.inj h).le

theorem lt_skipName {pos p : Nat} (hpos : pos < length) (h : skipName buf length pos = some p) : pos < p := by
  obtain ⟨q, hq, rfl⟩ := map_eq_some_iff.mp h
  have hle := le_skipLabels hq
  split
  · omega
  · rename_i hzero
    -- the labels end at a zero only, so that one that starts here is not empty
    by_contra hnot
    obtain rfl : q = pos := by omega
    obtain ⟨fuel, rfl⟩ : ∃ fuel, length = fuel + 1 := ⟨length - 1, by omega⟩
    unfold skipLabels at hq
    rw [if_pos ⟨hpos, fun h0 => hzero ⟨hpos, h0⟩⟩] at hq
    dsimp only at hq
    split at hq
    · have := some.inj hq
      omega
    · split at hq
      · cases hq
      · have := le_skipLabels hq
        omega

theorem length_answerRecord (start : Nat) : (answerRecord start ip).length = 16 := rfl

/-- A question takes five bytes or more, and its answer takes sixteen. -/
theorem length_copyQuestions_le {n pos : Nat} {response : List Byte} {count : BitVec 16} {r : List Byte × BitVec 16}
    (h : copyQuestions buf length ip n pos response count = some r) :
    r.1.length ≤ response.length + 5 * (length - pos) := by
  induction n generalizing pos response count with
  | zero =>
    obtain rfl := some.inj h
    exact Nat.le_add_right ..
  | succ n ih =>
    unfold copyQuestions at h
    split at h
    · rename_i hpos
      split at h
      · cases h
      · rename_i p hp
        have hlt := lt_skipName hpos hp
        split at h
        · cases h
        · dsimp only at h
          split at h
          · have := ih h
            simp only [length_append, length_readBytes, length_answerRecord] at this
            omega
          · have := ih h
            simp only [length_append, length_readBytes] at this
            omega
    · obtain rfl := some.inj h
      exact Nat.le_add_right ..

theorem length_buildDnsResponse_lt (hlen : length ≤ 512) : (buildDnsResponse buf length ip).length < 2 ^ 16 := by
  unfold buildDnsResponse
  dsimp only
  split
  · decide
  · split
    · decide
    · rename_i response count hcopy
      have := length_copyQuestions_le hcopy
      have hheader : (responseHeader buf).length = 12 := rfl
      simp only [length_set] at this ⊢
      omega

end

/-! ## A session -/

namespace TcpSession

theorem receive_cons (b : Byte) (bs : List Byte) :
    s.receive (b :: bs) =
      (((s.receiveByte b).1.receive bs).1, (s.receiveByte b).2 ++ ((s.receiveByte b).1.receive bs).2) :=
  rfl

theorem receive_closed {s : TcpSession} (h : s.read = .closed) (bs : List Byte) : s.receive bs = (s, []) := by
  induction bs with
  | nil => rfl
  | cons b bs ih =>
    have hb : s.receiveByte b = (s, []) := by rw [receiveByte, h]
    rw [receive_cons, hb, ih, append_nil]

theorem receive_append (as bs : List Byte) :
    s.receive (as ++ bs) = (((s.receive as).1.receive bs).1, (s.receive as).2 ++ ((s.receive as).1.receive bs).2) := by
  induction as generalizing s with
  | nil => rfl
  | cons a as ih =>
    rw [cons_append, receive_cons, receive_cons, ih, append_assoc]

theorem receive_message {s : TcpSession} {bs : List Byte} (hne : bs ≠ [])
    (h : s.read = .message (s.filled + bs.length)) :
    (s.receive bs).1.read = .closed ∧ (s.receive bs).2 =
      { s with recvBuffer := writeBytes s.recvBuffer (2 + s.filled) bs }.handleQuery (s.filled + bs.length) := by
  induction bs generalizing s with
  | nil => exact absurd rfl hne
  | cons b bs ih =>
    cases bs with
    | nil =>
      have hb : s.receiveByte b = ({ s with
          recvBuffer := writeBytes s.recvBuffer (2 + s.filled) [b], filled := s.filled + 1, read := .closed },
          { s with recvBuffer := writeBytes s.recvBuffer (2 + s.filled) [b] }.handleQuery (s.filled + 1)) := by
        rw [receiveByte, h]
        exact if_pos rfl
      rw [receive_cons, hb]
      exact ⟨rfl, append_nil _⟩
    | cons b' bs =>
      have hb : s.receiveByte b = ({ s with
          recvBuffer := writeBytes s.recvBuffer (2 + s.filled) [b], filled := s.filled + 1 }, []) := by
        rw [receiveByte, h]
        exact if_neg (by simp only [length_cons]; omega)
      have hrest := ih (s := { s with
          recvBuffer := writeBytes s.recvBuffer (2 + s.filled) [b], filled := s.filled + 1 }) (cons_ne_nil b' bs)
        (h.trans (congrArg TcpRead.message (by simp only [length_cons]; omega)))
      rw [receive_cons, hb]
      refine ⟨hrest.1, hrest.2.trans ?_⟩
      have hbuf := writeBytes_append s.recvBuffer (2 + s.filled) [b] (b' :: bs)
      rw [length_singleton, singleton_append, Nat.add_assoc] at hbuf
      simp only [handleQuery, hbuf, length_cons,
        show s.filled + 1 + (bs.length + 1) = s.filled + (bs.length + 1 + 1) by omega]

end TcpSession

/-- What a session writes for a message: nothing, or the response behind its length. -/
def framedResponse (msg : List Byte) : List (List Byte) :=
  let response := buildDnsResponse (bufferOf msg) msg.length ip
  if response = [] then []
  else
    let responseLength := BitVec.ofNat 16 response.length
    [(responseLength >>> 8).setWidth 8 :: responseLength.setWidth 8 :: response]

/-- The buffer of a session that has read a message holds the message, and zeros behind it. -/
theorem bufferOf_eq (hi lo : Byte) (msg : List Byte) :
    (fun i => writeBytes (writeBytes (fun _ => 0) 0 [hi, lo]) 2 msg (2 + i)) = bufferOf msg := by
  funext i
  have hzero : writeBytes (fun _ => 0) 0 [hi, lo] (2 + i) = 0 := writeBytes_of_not_mem (.inr (by simp))
  rw [writeBytes, if_pos (by omega), hzero, Nat.add_sub_cancel_left]
  rfl

namespace TcpSession

/-- A session that has read the length. -/
def lengthRead (hi lo : Byte) : TcpSession :=
  { start ip with recvBuffer := writeBytes (fun _ => 0) 0 [hi, lo], filled := 2 }

theorem receive_length {hi lo : Byte} (hle : (word16 hi lo).toNat ≤ 512) :
    (start ip).receive [hi, lo] = (lengthRead ip hi lo).doReadMessage (word16 hi lo).toNat := by
  have hbuf : writeBytes (writeBytes (fun _ => 0) 0 [hi]) 1 [lo] = writeBytes (fun _ => 0) 0 [hi, lo] :=
    writeBytes_append _ 0 [hi] [lo]
  have h1 : (start ip).receiveByte hi =
      ({ start ip with recvBuffer := writeBytes (fun _ => 0) 0 [hi], filled := 1 }, []) := rfl
  have h2 : { start ip with recvBuffer := writeBytes (fun _ => 0) 0 [hi], filled := 1 }.receiveByte lo =
      (lengthRead ip hi lo).doReadMessage (word16 hi lo).toNat := by
    simp only [receiveByte, start, hbuf, lengthRead]
    exact if_neg (Nat.not_lt.mpr hle)
  rw [receive_cons, h1, receive_cons, h2]
  simp [receive]

/-- The message that a connection starts with is the one that is answered. -/
theorem receive_start {hi lo : Byte} {msg : List Byte} (hlen : msg.length ≤ 512)
    (hw : (word16 hi lo).toNat = msg.length) (extra : List Byte) :
    ((start ip).receive (hi :: lo :: (msg ++ extra))).2 = framedResponse ip msg := by
  have hsplit : hi :: lo :: (msg ++ extra) = [hi, lo] ++ (msg ++ extra) := rfl
  rw [hsplit, receive_append, receive_length ip (by omega), hw]
  cases msg with
  | nil =>
    have hread : (lengthRead ip hi lo).doReadMessage 0 =
        ({ lengthRead ip hi lo with read := .closed }, (lengthRead ip hi lo).handleQuery 0) := rfl
    rw [length_nil, hread]
    rw [receive_closed rfl, append_nil]
    have hempty := bufferOf_eq hi lo []
    rw [writeBytes_nil] at hempty
    simp only [handleQuery, lengthRead, hempty]
    rfl
  | cons b bs =>
    have hread : (lengthRead ip hi lo).doReadMessage (b :: bs).length =
        ({ lengthRead ip hi lo with read := .message (b :: bs).length, filled := 0 }, []) :=
      if_neg (by simp)
    have hmsg := receive_message (s := { lengthRead ip hi lo with read := .message (b :: bs).length, filled := 0 })
      (cons_ne_nil b bs) (congrArg TcpRead.message (Nat.zero_add _).symm)
    rw [hread]
    change [] ++ (receive { lengthRead ip hi lo with read := .message (b :: bs).length, filled := 0 } _).2 = _
    rw [receive_append, nil_append, hmsg.2, receive_closed hmsg.1, append_nil, Nat.zero_add]
    have hbuf := bufferOf_eq hi lo (b :: bs)
    simp only [handleQuery, lengthRead, Nat.add_zero, hbuf]
    rfl

end TcpSession

/-! ## Many sessions -/

namespace TcpServer

/-- The connection is neither closed nor accepted anew. -/
def Undisturbed (c : Nat) (events : List TcpEvent) : Prop := ∀ e ∈ events, e ≠ .accepted c ∧ e ≠ .failed c

theorem run_cons (s : TcpServer) (e : TcpEvent) (es : List TcpEvent) :
    s.run (e :: es) = (((s.step e).1.run es).1, (s.step e).2 ++ ((s.step e).1.run es).2) := rfl

theorem responseIp_step (s : TcpServer) (e : TcpEvent) : (s.step e).1.responseIp = s.responseIp := by
  unfold step
  split
  · rfl
  · rfl
  · split
    · rfl
    · rfl
  · rfl

theorem responseIp_run (s : TcpServer) (es : List TcpEvent) : (s.run es).1.responseIp = s.responseIp := by
  induction es generalizing s with
  | nil => rfl
  | cons e es ih => rw [run_cons, ih, responseIp_step]

theorem repliesOn_append (c : Nat) (as bs : List (Nat × List Byte)) :
    repliesOn c (as ++ bs) = repliesOn c as ++ repliesOn c bs := filterMap_append

theorem repliesOn_map (c c' : Nat) (sent : List (List Byte)) :
    repliesOn c (sent.map (c', ·)) = if c' = c then sent else [] := by
  by_cases h : c' = c
  · simp [repliesOn, filterMap_map, h]
  · simp [repliesOn, filterMap_map, h]

/-- One event changes the session of its own connection only, and sends over that connection only. -/
theorem step_session {s : TcpServer} {c : Nat} {session : TcpSession} (hs : s.sessions c = some session) {e : TcpEvent}
    (ha : e ≠ .accepted c) (hf : e ≠ .failed c) :
    (s.step e).1.sessions c = some (session.receive (bytesOn c [e])).1 ∧
      repliesOn c (s.step e).2 = (session.receive (bytesOn c [e])).2 := by
  cases e with
  | accepted c' =>
    have hne : c ≠ c' := fun h => ha (by rw [h])
    exact ⟨(update_of_ne hne ..).trans hs, rfl⟩
  | acceptFailed => exact ⟨hs, rfl⟩
  | failed c' =>
    have hne : c ≠ c' := fun h => hf (by rw [h])
    exact ⟨(update_of_ne hne ..).trans hs, rfl⟩
  | received c' bytes =>
    by_cases hc : c' = c
    · subst hc
      have hstep : s.step (.received c' bytes) =
          (s.setSession c' (some (session.receive bytes).1), (session.receive bytes).2.map (c', ·)) := by
        simp [step, hs]
      have hbytes : bytesOn c' [.received c' bytes] = bytes := by simp [bytesOn]
      rw [hstep, hbytes]
      refine ⟨update_self .., ?_⟩
      rw [repliesOn_map, if_pos rfl]
    · have hbytes : bytesOn c [.received c' bytes] = [] := by simp [bytesOn, hc]
      rw [hbytes]
      cases hs' : s.sessions c' with
      | none => simpa only [step, hs'] using ⟨hs, rfl⟩
      | some session' =>
        have hstep : s.step (.received c' bytes) =
            (s.setSession c' (some (session'.receive bytes).1), (session'.receive bytes).2.map (c', ·)) := by
          simp [step, hs']
        rw [hstep]
        refine ⟨(update_of_ne (Ne.symm hc) ..).trans hs, ?_⟩
        rw [repliesOn_map, if_neg hc]
        rfl

theorem bytesOn_cons (c : Nat) (e : TcpEvent) (es : List TcpEvent) :
    bytesOn c (e :: es) = bytesOn c [e] ++ bytesOn c es := by
  cases e with
  | accepted c' => rfl
  | acceptFailed => rfl
  | failed c' => rfl
  | received c' bytes =>
    by_cases hc : c' = c
    · simp [bytesOn, hc]
    · simp [bytesOn, hc]

/-- What is sent over a connection is what its session sends for the bytes that arrive there. -/
theorem repliesOn_run {s : TcpServer} {c : Nat} {session : TcpSession} (hs : s.sessions c = some session)
    {events : List TcpEvent} (hu : Undisturbed c events) :
    repliesOn c (s.run events).2 = (session.receive (bytesOn c events)).2 := by
  induction events generalizing s session with
  | nil => rfl
  | cons e es ih =>
    obtain ⟨ha, hf⟩ := hu e mem_cons_self
    obtain ⟨hsession, hreplies⟩ := step_session hs ha hf
    rw [run_cons, repliesOn_append, hreplies, ih hsession fun e' he' => hu e' (mem_cons_of_mem e he'),
      bytesOn_cons c e es, TcpSession.receive_append]

end TcpServer

/-! ## Agreement -/

/-- What the datagram server sends for a message, after some traffic. -/
def udpReplies (traffic : List UdpEvent) (msg : List Byte) : List (List Byte) :=
  (((UdpServer.start ip).run traffic).receive (.received msg)).2

/-- What is sent over a connection that is accepted after some traffic. -/
def tcpReplies (traffic : List TcpEvent) (c : Nat) (later : List TcpEvent) : List (List Byte) :=
  repliesOn c (((((TcpServer.start ip).run traffic).1.step (.accepted c)).1.run later).2)

/-- The first message that arrives over the connection, in any number of parts and between the events of others. -/
structure Delivers (c : Nat) (msg : List Byte) (later : List TcpEvent) : Prop where
  undisturbed : TcpServer.Undisturbed c later
  bytes : ∃ hi lo extra, bytesOn c later = hi :: lo :: (msg ++ extra) ∧ (word16 hi lo).toNat = msg.length

/-- The reply is a response behind its length. -/
def Framed (response reply : List Byte) : Prop :=
  ∃ hi lo, reply = hi :: lo :: response ∧ (word16 hi lo).toNat = response.length

/-- A message has the same answer over both transports, which its bytes determine. -/
structure TransportsAgree (ip : BitVec 32) (msg : List Byte) : Prop where
  same : ∀ udpTraffic tcpTraffic c later, Delivers c msg later →
    List.Forall₂ Framed (udpReplies ip udpTraffic msg) (tcpReplies ip tcpTraffic c later)
  udp : ∀ traffic traffic', udpReplies ip traffic msg = udpReplies ip traffic' msg
  tcp : ∀ traffic c later traffic' c' later', Delivers c msg later → Delivers c' msg later' →
    tcpReplies ip traffic c later = tcpReplies ip traffic' c' later'

section

variable {ip : BitVec 32} {msg : List Byte}

theorem UdpServer.responseIp_run (s : UdpServer) (traffic : List UdpEvent) :
    (s.run traffic).responseIp = s.responseIp := by
  induction traffic generalizing s with
  | nil => rfl
  | cons e traffic ih =>
    have he : (s.receive e).1.responseIp = s.responseIp := by
      cases e with
      | received datagram => rfl
      | failed bytes => rfl
    exact (ih _).trans he

theorem udpReplies_eq (hlen : msg.length ≤ 512) (traffic : List UdpEvent) : udpReplies ip traffic msg =
      if 12 ≤ msg.length then
        if buildDnsResponse (bufferOf msg) msg.length ip = [] then []
        else [buildDnsResponse (bufferOf msg) msg.length ip]
      else [] := by
  have htake : msg.take 512 = msg := take_of_length_le hlen
  unfold udpReplies UdpServer.receive
  simp only [htake]
  by_cases h : 12 ≤ msg.length
  · have hbuild (buf : Nat → Byte) :
        buildDnsResponse (writeBytes buf 0 msg) msg.length ip = buildDnsResponse (bufferOf msg) msg.length ip := by
      refine buildDnsResponse_congr h fun i hi => ?_
      simp [writeBytes, bufferOf, getD_eq_getElem?_getD, hi]
    simp only [if_pos h, UdpServer.handleQuery, UdpServer.responseIp_run]
    rw [show (UdpServer.start ip).responseIp = ip from rfl, hbuild]
  · simp only [if_neg h]

theorem tcpReplies_eq (hlen : msg.length ≤ 512) (traffic : List TcpEvent) {c : Nat} {later : List TcpEvent}
    (hd : Delivers c msg later) : tcpReplies ip traffic c later = framedResponse ip msg := by
  obtain ⟨hi, lo, extra, hbytes, hw⟩ := hd.bytes
  have hsession : (((TcpServer.start ip).run traffic).1.step (.accepted c)).1.sessions c = some (.start ip) := by
    have hip : ((TcpServer.start ip).run traffic).1.responseIp = ip := TcpServer.responseIp_run ..
    refine (update_self ..).trans ?_
    rw [hip]
  rw [tcpReplies, TcpServer.repliesOn_run hsession hd.undisturbed, hbytes]
  exact TcpSession.receive_start ip hlen hw extra

theorem framed_response (hlen : msg.length ≤ 512) : Forall₂ Framed
      (if buildDnsResponse (bufferOf msg) msg.length ip = [] then []
        else [buildDnsResponse (bufferOf msg) msg.length ip])
      (framedResponse ip msg) := by
  unfold framedResponse
  dsimp only
  split
  · exact .nil
  · refine .cons ⟨_, _, rfl, ?_⟩ .nil
    rw [word16_finishedHeader, BitVec.toNat_ofNat, Nat.mod_eq_of_lt (length_buildDnsResponse_lt hlen)]

/-- A message over a connection that nothing else happens on. -/
theorem delivers_alone (c : Nat) (hlen : msg.length ≤ 512) :
    Delivers c msg [.received c (encode16 (BitVec.ofNat 16 msg.length) ++ msg)] := by
  let len := BitVec.ofNat 16 msg.length
  refine ⟨fun e he => ?_, BitVec.ofNat 8 (len.toNat / 256), BitVec.ofNat 8 len.toNat, [], ?_, ?_⟩
  · obtain rfl := mem_singleton.mp he
    exact ⟨TcpEvent.noConfusion, TcpEvent.noConfusion⟩
  · simp [bytesOn, encode16, len]
  · rw [word16_encode16, BitVec.toNat_ofNat, Nat.mod_eq_of_lt (by omega)]

end

/-- The datagram server leaves messages without a header alone, and the session does not. -/
theorem transportsAgree_iff (ip : BitVec 32) (msg : List Byte) (hlen : msg.length ≤ 512) :
    TransportsAgree ip msg ↔
      12 ≤ msg.length ∨ word16 (bufferOf msg 2) (bufferOf msg 3) &&& 0x7800 ≠ 0 ∨ questionCount (bufferOf msg) = 0 := by
  constructor
  · intro h
    by_contra hnot
    obtain ⟨hshort, hanswer⟩ := not_or.mp hnot
    have hsame := h.same [] [] 0 _ (delivers_alone 0 hlen)
    rw [udpReplies_eq hlen, if_neg hshort, tcpReplies_eq hlen [] (delivers_alone 0 hlen)] at hsame
    have hne : buildDnsResponse (bufferOf msg) msg.length ip ≠ [] := fun he =>
      hanswer ((buildDnsResponse_short (Nat.lt_of_not_le hshort)).mp he)
    simp only [framedResponse, if_neg hne] at hsame
    cases hsame
  · intro h
    refine ⟨fun udpTraffic tcpTraffic c later hd => ?_, fun traffic traffic' => ?_,
      fun traffic c later traffic' c' later' hd hd' => ?_⟩
    · rw [udpReplies_eq hlen, tcpReplies_eq hlen tcpTraffic hd]
      have hframed : Forall₂ Framed _ (framedResponse ip msg) := framed_response hlen
      by_cases hheader : 12 ≤ msg.length
      · rw [if_pos hheader]
        exact hframed
      · have hnone : buildDnsResponse (bufferOf msg) msg.length ip = [] :=
          (buildDnsResponse_short (Nat.lt_of_not_le hheader)).mpr (h.resolve_left hheader)
        rw [if_pos hnone] at hframed
        rw [if_neg hheader]
        exact hframed
    · rw [udpReplies_eq hlen, udpReplies_eq hlen]
    · rw [tcpReplies_eq hlen traffic hd, tcpReplies_eq hlen traffic' hd']

/-- A query with a header has the same answer over both. -/
theorem transportsAgree_one_question : TransportsAgree 0x7f000001 hostQuery :=
  (transportsAgree_iff 0x7f000001 hostQuery (by decide)).mpr (.inl (by decide))

/-- A message of five bytes is answered by the session only. -/
theorem not_transportsAgree_five_bytes : ¬ TransportsAgree 0x7f000001 [0, 0, 0, 0, 1] := by
  intro h
  have hd : Delivers 0 [0, 0, 0, 0, 1] [.received 0 [0, 5, 0, 0, 0, 0, 1]] :=
    ⟨by unfold TcpServer.Undisturbed; decide, 0, 5, [], by decide, by decide⟩
  have hlength := (h.same [] [] 0 _ hd).length_eq
  revert hlength
  decide

end MachineEmulator.HttpsProxy

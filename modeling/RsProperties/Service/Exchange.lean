import RsProperties.Service.Linearize
import RsProperties.Service.Send

/-!
# What the outcome of `set` says

The second half of the client's `set`: in V2 it waits for the status word with `recv_i32`, which puts the
word together from reads of any size; in V1 it waits for the server to close the connection, and whatever
comes of that is ignored.

Client and service together: `Ok` of a V2 `set` means that the service has applied exactly this name and
value, once; a service error means that no value was changed; and a request that did not reach the wire as
a whole is never applied, in either protocol (`set_outcome`).
-/

namespace RsProperties

open ByteMem StateExcept

namespace Client

/-! ### Receiving -/

/-- The result of one `read`; a failure may be the expiry of the socket's timeout. -/
inductive ReadResult
  | read (n : ℕ)
  | interrupted
  | failed (timedOut : Bool) (msg : String)
  deriving DecidableEq, Repr

/-- `i32::from_ne_bytes`. -/
def ofI32Bytes (order : ByteOrder) (bs : Bytes) : ℤ :=
  if ofU32Bytes order bs < 2 ^ 31 then ofU32Bytes order bs else ofU32Bytes order bs - 2 ^ 32

/-- The loop of `recv_i32`, over the results of its reads; `buf` is the filled part of the buffer. A read
takes the front of what the server has sent and is not yet read. The end of the list is the end of the time
budget. -/
def recvLoop (order : ByteOrder) (sent : Bytes) : List ReadResult → Bytes → Except Error ℤ
  | [], buf =>
    if 4 ≤ buf.length then .ok (ofI32Bytes order buf)
    else .error (.io
      s!"timed out waiting for property service response (2s total, {buf.length}/4 bytes received)")
  | r :: results, buf =>
    if 4 ≤ buf.length then .ok (ofI32Bytes order buf)
    else
      match r with
      | .read n =>
        let bytes := (sent.drop buf.length).take (min n (4 - buf.length))
        if bytes.isEmpty then
          .error (.io "property service closed before sending a full response")
        else recvLoop order sent results (buf ++ bytes)
      | .interrupted => recvLoop order sent results buf
      | .failed timedOut msg =>
        .error (mapTimeoutErr timedOut msg "waiting for property service response")

def recvI32 (order : ByteOrder) (sent : Bytes) (results : List ReadResult) : Except Error ℤ :=
  recvLoop order sent results []

/-- The whole of `set`. -/
def setProperty (order : ByteOrder) (version : ProtocolVersion) (connect : Except Error Unit)
    (writes : List WriteResult) (sent : Bytes) (reads : List ReadResult) (name value : Bytes) :
    Except Error Unit := do
  let _ ← set order version connect writes name value
  match version with
  | .v1 => return ()
  | .v2 => do
    let res ← recvI32 order sent reads
    if res ≠ propSuccess then .error (.serviceError (display name) res)
    else return ()

section Receiving

variable {order : ByteOrder} {sent : Bytes}

theorem recvLoop_of_full {buf : Bytes} (h4 : 4 ≤ buf.length) (results : List ReadResult) :
    recvLoop order sent results buf = .ok (ofI32Bytes order buf) := by
  cases results with
  | nil => rw [recvLoop, if_pos h4]
  | cons r results => cases r <;> rw [recvLoop, if_pos h4]

/-- However the reads cut it up, the word is the first four bytes the server sent. -/
theorem recvLoop_eq_ok {results : List ReadResult} {buf : Bytes} {x : ℤ} (hle : buf.length ≤ 4)
    (hbuf : buf <+: sent) (h : recvLoop order sent results buf = .ok x) :
    4 ≤ sent.length ∧ x = ofI32Bytes order (sent.take 4) := by
  have full : 4 ≤ buf.length → Except.ok (ofI32Bytes order buf) = (.ok x : Except Error ℤ) →
      4 ≤ sent.length ∧ x = ofI32Bytes order (sent.take 4) := by
    intro h4 hx
    have hlen : buf.length = 4 := le_antisymm hle h4
    have htake := List.prefix_iff_eq_take.mp hbuf
    rw [hlen] at htake
    refine ⟨hlen ▸ hbuf.length_le, ?_⟩
    rw [← htake, Except.ok.inj hx]
  induction results generalizing buf with
  | nil =>
    rw [recvLoop] at h
    split_ifs at h with h4
    exact full h4 h
  | cons r results ih =>
    by_cases h4 : 4 ≤ buf.length
    · rw [recvLoop_of_full h4] at h
      exact full h4 h
    cases r with
    | read n =>
      rw [recvLoop, if_neg h4] at h
      dsimp only at h
      split_ifs at h with hempty
      obtain ⟨rest, rfl⟩ := hbuf
      rw [List.drop_left] at h
      -- the buffer stays a prefix of what was sent, and does not outgrow four bytes
      have hnext : buf ++ rest.take (min n (4 - buf.length)) <+: buf ++ rest :=
        (List.prefix_append_right_inj buf).mpr (List.take_prefix _ _)
      have hlen : (buf ++ rest.take (min n (4 - buf.length))).length ≤ 4 := by
        rw [List.length_append, List.length_take]
        omega
      refine ih hlen hnext h ?_
      intro h4' hx
      have hlen' := le_antisymm hlen h4'
      have htake := List.prefix_iff_eq_take.mp hnext
      rw [hlen'] at htake
      refine ⟨hlen' ▸ hnext.length_le, ?_⟩
      rw [← htake, Except.ok.inj hx]
    | interrupted =>
      rw [recvLoop, if_neg h4] at h
      exact ih hle hbuf h full
    | failed timedOut msg =>
      rw [recvLoop, if_neg h4] at h
      cases h

theorem recvI32_eq_ok {results : List ReadResult} {x : ℤ} (h : recvI32 order sent results = .ok x) :
    4 ≤ sent.length ∧ x = ofI32Bytes order (sent.take 4) :=
  recvLoop_eq_ok (by simp) List.nil_prefix h

theorem recvLoop_ne_serviceError {results : List ReadResult} {buf : Bytes} {name : String} {code : ℤ} :
    recvLoop order sent results buf ≠ .error (.serviceError name code) := by
  intro h
  induction results generalizing buf with
  | nil =>
    rw [recvLoop] at h
    split_ifs at h
    cases h
  | cons r results ih =>
    by_cases h4 : 4 ≤ buf.length
    · rw [recvLoop_of_full h4] at h
      cases h
    cases r with
    | read n =>
      rw [recvLoop, if_neg h4] at h
      dsimp only at h
      split_ifs at h
      · cases h
      · exact ih h
    | interrupted =>
      rw [recvLoop, if_neg h4] at h
      exact ih h
    | failed timedOut msg =>
      rw [recvLoop, if_neg h4, mapTimeoutErr] at h
      cases timedOut <;> cases h

theorem ofI32Bytes_success (order : ByteOrder) :
    ofI32Bytes order (Service.i32Bytes order propSuccess) = propSuccess := by
  cases order <;> decide

theorem ofI32Bytes_error (order : ByteOrder) :
    ofI32Bytes order (Service.i32Bytes order propError) = propError := by
  cases order <;> decide

theorem length_i32Bytes (order : ByteOrder) (x : ℤ) : (Service.i32Bytes order x).length = 4 := by
  rw [Service.i32Bytes, length_u32Bytes]

section Outcome

variable {connect : Except Error Unit} {writes : List WriteResult} {wire : Bytes}
  {reads : List ReadResult} {name value : Bytes}

theorem setProperty_v2 (hset : set order .v2 connect writes name value = .ok wire) :
    setProperty order .v2 connect writes sent reads name value = (do
      let res ← recvI32 order sent reads
      if res ≠ propSuccess then .error (.serviceError (display name) res) else return ()) := by
  rw [setProperty, except_bind_ok hset]

theorem setProperty_v2_eq_ok (hset : set order .v2 connect writes name value = .ok wire)
    (h : setProperty order .v2 connect writes sent reads name value = .ok ()) :
    4 ≤ sent.length ∧ ofI32Bytes order (sent.take 4) = propSuccess := by
  rw [setProperty_v2 hset] at h
  obtain ⟨res, hres, h⟩ := except_bind_eq_ok.mp h
  split_ifs at h with hne
  obtain ⟨hlen, rfl⟩ := recvI32_eq_ok hres
  exact ⟨hlen, not_not.mp hne⟩

theorem setProperty_v2_eq_error (hset : set order .v2 connect writes name value = .ok wire)
    {shown : String} {code : ℤ}
    (h : setProperty order .v2 connect writes sent reads name value =
      .error (.serviceError shown code)) :
    shown = display name ∧ 4 ≤ sent.length ∧ code = ofI32Bytes order (sent.take 4) ∧
      code ≠ propSuccess := by
  rw [setProperty_v2 hset] at h
  cases hres : recvI32 order sent reads with
  | error e =>
    rw [hres] at h
    cases h
    exact absurd hres recvLoop_ne_serviceError
  | ok res =>
    obtain ⟨hlen, hword⟩ := recvI32_eq_ok hres
    rw [hres] at h
    simp only [bind, Except.bind] at h
    split_ifs at h with hne
    · cases h
      exact ⟨rfl, hlen, hword, hne⟩
    · cases h

end Outcome

end Receiving

/-! ### Requests that were cut -/

/-- The fragments of a request, one for each buffer of the writer. -/
def fragments (order : ByteOrder) (version : ProtocolVersion) (name value : Bytes) : List Bytes :=
  match version with
  | .v1 => [PropertyMessage.asBytes order ⟨propMsgSetprop,
      name ++ List.replicate (propNameMax - name.length) 0,
      value ++ List.replicate (propValueMax - value.length) 0⟩]
  | .v2 => [u32Bytes order propMsgSetprop2, u32Bytes order name.length, name,
      u32Bytes order value.length, value]

theorem flatten_fragments (order : ByteOrder) (version : ProtocolVersion) (name value : Bytes) :
    (fragments order version name value).flatten = request order version name value := by
  cases version with
  | v1 =>
    rw [fragments, List.flatten_singleton]
    rfl
  | v2 => simp [fragments, request]

/-- A `send` that fails has not put the whole of its fragments on the wire. -/
theorem SendRun.written_lt {buffers : List Bytes} {H : List SendEvent} {s : Sending}
    (h : SendRun buffers H s) {e : Error} (he : s.returned = some (.error e)) :
    s.written < buffers.flatten.length := by
  have hinv : ∀ e, s.returned = some (.error e) → s.written < buffers.flatten.length := by
    refine Trace.Run.invariant (I := fun _ s => ∀ e, s.returned = some (.error e) →
      s.written < buffers.flatten.length) ?_ ?_ h
    · rintro s rfl e he
      cases he
    · intro H s x s' hi hstep e he
      cases hstep with
      | expired hrun hmore => exact hmore
      | flush hrun hdone => cases he
      | @call r hrun hmore hr =>
        cases r with
        | interrupted => exact hmore
        | failed timedOut msg => exact hmore
        | wrote n =>
          simp only [Sending.afterWrite] at he ⊢
          split_ifs at he ⊢ with h0
          · exact hmore
          · rw [hrun] at he
            cases he
  exact hinv e he

/-- What follows a frame is left for later. -/
theorem frame_append {order : ByteOrder} {bs rest : Bytes} {m : Service.PropertyMessage}
    (h : Service.frame order bs = some (m, rest)) (tail : Bytes) :
    Service.frame order (bs ++ tail) = some (m, rest ++ tail) := by
  rw [Service.frame_eq_some] at h ⊢
  rcases h with ⟨hc, rfl⟩ | ⟨nf, vf, hc, rfl⟩
  · exact .inl ⟨hc, List.append_assoc _ _ _⟩
  · exact .inr ⟨nf, vf, hc, List.append_assoc _ _ _⟩

theorem frame_request_self {order : ByteOrder} {version : ProtocolVersion} {name value : Str}
    (hacc : Accepts version name.bytes value.bytes) :
    Service.frame order (request order version name.bytes value.bytes) = some (⟨name, value⟩, []) := by
  rw [← List.append_nil (request order version name.bytes value.bytes)]
  exact frame_request hacc []

/-- **No part of a request is a frame.** -/
theorem frame_of_prefix_request {order : ByteOrder} {version : ProtocolVersion} {name value : Str}
    (hacc : Accepts version name.bytes value.bytes) {bs : Bytes}
    (hbs : bs <+: request order version name.bytes value.bytes)
    (hlt : bs.length < (request order version name.bytes value.bytes).length) :
    Service.frame order bs = none := by
  obtain ⟨tail, htail⟩ := hbs
  cases hf : Service.frame order bs with
  | none => rfl
  | some mr =>
    obtain ⟨m, rest⟩ := mr
    have happ := frame_append hf tail
    have hreq : Service.frame order (request order version name.bytes value.bytes) =
      some (⟨name, value⟩, []) := frame_request_self hacc
    rw [← htail, happ] at hreq
    obtain ⟨-, hrest⟩ := Prod.mk.inj (Option.some.inj hreq)
    rw [← htail, (List.append_eq_nil_iff.mp hrest).2, List.append_nil] at hlt
    exact absurd hlt (lt_irrefl _)

end Client

namespace Service

section Told

variable {order : ByteOrder} {store : SystemProperties} {s : System} {c : ℕ} {conn : Connection}
  {pending : List (ℕ × PropertyMessage)} {done : List Applied}

theorem ConnInv.status_of_received (h : ConnInv order c conn pending done) {w : Bytes}
    (hw : w ∈ conn.received) : w = i32Bytes order propSuccess ∨ w = i32Bytes order propError := by
  cases h with
  | waiting _ _ _ _ hrec =>
    rw [hrec] at hw
    cases hw
  | running _ _ _ _ hrec =>
    rcases hrec w hw with ⟨h, -⟩ | ⟨h, -⟩
    · exact .inl h
    · exact .inr h

/-- The first word a client reads is one of the status words it was sent. -/
theorem ConnInv.first_word (h : ConnInv order c conn pending done)
    (hlen : 4 ≤ conn.received.flatten.length) :
    conn.received.flatten.take 4 ∈ conn.received ∧
      (conn.received.flatten.take 4 = i32Bytes order propSuccess ∨
        conn.received.flatten.take 4 = i32Bytes order propError) := by
  cases hrec : conn.received with
  | nil =>
    rw [hrec] at hlen
    simp at hlen
  | cons w ws =>
    have hstatus := h.status_of_received (hrec ▸ List.mem_cons_self : w ∈ conn.received)
    have hw : w.length = 4 := by
      rcases hstatus with rfl | rfl <;> exact Client.length_i32Bytes _ _
    rw [List.flatten_cons, List.take_append_of_le_length (le_of_eq hw.symm),
      List.take_of_length_le (le_of_eq hw)]
    exact ⟨List.mem_cons_self, hstatus⟩

/-- What is applied for a connection is the message of its input. -/
theorem ConnInv.frame_of_done (h : ConnInv order c conn pending done) {a : Applied} (ha : a ∈ done) :
    ∃ rest, frame order conn.input = some (a.message, rest) := by
  cases h with
  | waiting => cases ha
  | running _ _ _ hinput _ _ =>
    obtain ⟨⟨m, b⟩, hm, rfl⟩ := Option.map_eq_some_iff.mp (Option.mem_toList.mp ha)
    exact hinput m b hm

theorem SystemInv.frame_of_processed (h : SystemInv order store s) (hc : s.conns c = some conn)
    {a : Applied} (ha : a ∈ s.processed) (hac : a.conn = c) :
    ∃ rest, frame order conn.input = some (a.message, rest) := by
  refine (h.conns c conn hc).frame_of_done (List.mem_filter.mpr ⟨ha, ?_⟩)
  rw [hac]
  exact beq_self_eq_true c

end Told

end Service

namespace Client

open Service (Reaches replay)

/-- **What `set` returns is what happened.** In every state of every run of the service, for a client on a
connection: if its request went out and its V2 `set` returned `Ok`, exactly its name and value have been
applied, once; if `set` returned the service's error, no value was changed for it; if its `send` failed,
nothing is applied for it, in either protocol; and a request that went out is applied at most once. -/
theorem set_outcome {info : PropertyInfoArea} {store : SystemProperties}
    {seen : List (Str × PropertyIndex)} (hstore : StoreReachable info (store, seen))
    {order : ByteOrder} {s : Service.System} (h : Reaches order store s) {c : ℕ}
    {conn : Service.Connection} (hc : s.conns c = some conn) (name value : Str) :
    (∀ connect writes reads,
      set order .v2 connect writes name.bytes value.bytes = .ok conn.input →
      setProperty order .v2 connect writes conn.received.flatten reads name.bytes value.bytes =
        .ok () →
      ∃ before after, s.processed = before ++ ⟨c, ⟨name, value⟩, true⟩ :: after ∧
        (∀ a ∈ before ++ after, a.conn ≠ c) ∧
        (replay store (before ++ [⟨c, ⟨name, value⟩, true⟩])).value name.bytes = some value) ∧
    (∀ connect writes reads shown code,
      set order .v2 connect writes name.bytes value.bytes = .ok conn.input →
      setProperty order .v2 connect writes conn.received.flatten reads name.bytes value.bytes =
        .error (.serviceError shown code) →
      shown = display name.bytes ∧ code = propError ∧
        ∀ before a after, s.processed = before ++ a :: after → a.conn = c →
          ∀ key, (replay store (before ++ [a])).value key = (replay store before).value key) ∧
    (∀ version H snd e, Accepts version name.bytes value.bytes →
      SendRun (fragments order version name.bytes value.bytes) H snd →
      snd.returned = some (.error e) → conn.input = snd.accepted →
      ∀ a ∈ s.processed, a.conn ≠ c) ∧
    (∀ version connect writes,
      set order version connect writes name.bytes value.bytes = .ok conn.input →
      s.processed.filter (·.conn == c) = [] ∨
        ∃ reply, s.processed.filter (·.conn == c) = [⟨c, ⟨name, value⟩, reply⟩]) := by
  have hinv := h.systemInv
  have hsound := hstore.storeInv.sound
  have hconn := hinv.conns c conn hc
  have hframe : ∀ version connect writes,
      set order version connect writes name.bytes value.bytes = .ok conn.input →
      Service.frame order conn.input = some (⟨name, value⟩, []) := by
    intro version connect writes hset
    obtain ⟨hacc, hwire⟩ := set_eq_ok hset
    rw [hwire]
    exact frame_request_self hacc
  refine ⟨?_, ?_, ?_, ?_⟩
  · intro connect writes reads hset hok
    obtain ⟨hlen, hword⟩ := setProperty_v2_eq_ok hset hok
    obtain ⟨hmem, hstatus⟩ := hconn.first_word hlen
    have hsucc : conn.received.flatten.take 4 = Service.i32Bytes order propSuccess := by
      rcases hstatus with hs | he
      · exact hs
      · rw [he, ofI32Bytes_error] at hword
        exact absurd hword (by decide)
    rw [hsucc] at hmem
    obtain ⟨m, rest, hf, hdone⟩ := hconn.of_success hmem
    rw [hframe .v2 connect writes hset] at hf
    obtain ⟨rfl, -⟩ := Prod.mk.inj (Option.some.inj hf)
    -- the one entry of the connection splits the log
    obtain ⟨before, after, hsplit, hbefore, -, hafter⟩ := List.filter_eq_cons_iff.mp hdone
    rw [List.filter_eq_nil_iff] at hafter
    refine ⟨before, after, hsplit, ?_, (hinv.replay_snoc hsound hsplit rfl).1⟩
    intro a ha hac
    rcases List.mem_append.mp ha with ha | ha
    · exact hbefore a ha (beq_iff_eq.mpr hac)
    · exact hafter a ha (beq_iff_eq.mpr hac)
  · intro connect writes reads shown code hset herr
    obtain ⟨hshown, hlen, rfl, hne⟩ := setProperty_v2_eq_error hset herr
    obtain ⟨hmem, hstatus⟩ := hconn.first_word hlen
    have herror : conn.received.flatten.take 4 = Service.i32Bytes order propError := by
      rcases hstatus with hs | he
      · rw [hs, ofI32Bytes_success] at hne
        exact absurd rfl hne
      · exact he
    rw [herror] at hmem
    refine ⟨hshown, by rw [herror, ofI32Bytes_error], ?_⟩
    intro before a after hsplit hac key
    have ha : a ∈ s.processed.filter (·.conn == c) := by
      rw [List.mem_filter, hsplit]
      exact ⟨by simp, by simp [hac]⟩
    have hrep := hinv.replies before a after hsplit
    rw [hconn.of_error hmem a ha] at hrep
    rw [Service.replay_append]
    exact Service.handle_false (Service.replay_allSound hsound before) hrep.symm key
  · intro version H snd e hacc hrun he hin a ha hac
    obtain ⟨rest, hf⟩ := hinv.frame_of_processed hc ha hac
    have hlt := hrun.written_lt he
    have hpre := hrun.inv.accepted_eq
    rw [flatten_fragments] at hlt hpre
    rw [hin, frame_of_prefix_request hacc (hpre ▸ List.take_prefix _ _) ?_] at hf
    · cases hf
    · rw [hpre, List.length_take]
      exact lt_of_le_of_lt (min_le_left _ _) hlt
  · intro version connect writes hset
    have hone := hconn.length_le
    cases hdone : s.processed.filter (·.conn == c) with
    | nil => exact .inl rfl
    | cons a as =>
      have ha : a ∈ s.processed.filter (·.conn == c) := hdone ▸ List.mem_cons_self
      obtain ⟨rest, hf⟩ := hconn.frame_of_done ha
      rw [hframe version connect writes hset] at hf
      obtain ⟨hm, -⟩ := Prod.mk.inj (Option.some.inj hf)
      rw [hdone, List.length_cons] at hone
      have has : as = [] := List.eq_nil_of_length_eq_zero (by omega)
      have hac : a.conn = c := by simpa using (List.mem_filter.mp ha).2
      refine .inr ⟨a.reply, ?_⟩
      rw [has, hm, ← hac]

/-- A run that serves one client up to the status word. -/
theorem exists_served {store : SystemProperties}
    (hok : (Service.handle Service.sampleMessage store).1 = true) :
    ∃ s conn, Reaches .little store s ∧ s.conns 0 = some conn ∧
      conn.input = request .little .v2 (ascii "ro.a") (ascii "1") ∧
      conn.received = [Service.i32Bytes .little propSuccess] := by
  have h0 : Reaches .little store (Service.System.start store) := .refl
  have h1 := h0.tail (.accept (c := 0) (request .little .v2 (ascii "ro.a") (ascii "1")) rfl)
  -- command word, name length, name, value length, value
  have h2 := h1.tail (.read (c := 0) (n := 4) rfl rfl (by decide))
  have h3 := h2.tail (.read (c := 0) (n := 4) rfl rfl (by decide))
  have h4 := h3.tail (.read (c := 0) (n := 4) rfl rfl (by decide))
  have h5 := h4.tail (.read (c := 0) (n := 4) rfl rfl (by decide))
  have h6 := h5.tail (.read (c := 0) (n := 1) rfl rfl (by decide))
  have h7 := h6.tail (.ask (c := 0) (m := Service.sampleMessage) rfl rfl)
  have h8 := h7.tail (.process (c := 0) (m := Service.sampleMessage)
    (show _ = [] ++ (0, Service.sampleMessage) :: [] from rfl) rfl rfl)
  simp only [Service.System.setConn, Service.System.start, hok] at h8
  have h9 := h8.tail (.write (c := 0) rfl rfl)
  exact ⟨_, _, h9, rfl, rfl, rfl⟩

/-- A client of a fresh store whose request leaves in two pieces and whose status word comes in two. -/
theorem set_outcome_sample :
    ∃ store s before after, SystemProperties.newArea sampleInfo = .ok store ∧
      Reaches .little store s ∧
      s.processed = before ++ ⟨0, Service.sampleMessage, true⟩ :: after ∧
      (replay store (before ++ [⟨0, Service.sampleMessage, true⟩])).value (ascii "ro.a") =
        some ⟨ascii "1", by decide⟩ := by
  have hcheck : ((SystemProperties.newArea sampleInfo).toOption.any fun sp =>
      (Service.handle Service.sampleMessage sp).1) = true := by
    decide +kernel
  cases hnew : SystemProperties.newArea sampleInfo with
  | error e =>
    rw [hnew] at hcheck
    cases hcheck
  | ok store =>
    rw [hnew] at hcheck
    simp only [Except.toOption, Option.any_some] at hcheck
    obtain ⟨s, conn, hs, hc, hin, hrec⟩ := exists_served hcheck
    have hreach : StoreReachable sampleInfo (store, []) := ⟨store, hnew, .refl⟩
    obtain ⟨hok, -⟩ :=
      set_outcome hreach hs hc ⟨ascii "ro.a", by decide⟩ ⟨ascii "1", by decide⟩
    rw [hin, hrec] at hok
    obtain ⟨before, after, hsplit, -, hval⟩ :=
      hok (.ok ()) [.wrote 3, .wrote 100] [.read 1, .interrupted, .read 9] (by decide +kernel)
        (by decide +kernel)
    exact ⟨store, s, before, after, rfl, hs, hsplit, hval⟩

end Client

end RsProperties

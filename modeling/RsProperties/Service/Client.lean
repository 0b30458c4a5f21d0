import RsProperties.Service.Grammar
import RsProperties.Service.Properties

/-!
# The client

`set` of the client side: the shared name and value policy, the limits of the protocol in use, then one
request on a fresh connection. The request is a list of byte fragments; `send` hands the unwritten
rest of them to the kernel until all of it is out, so short writes and interruptions do not cut a
frame.

What the client puts on the wire is a frame of the grammar the handler accepts, so the service gets
exactly the name and the value `set` was called with (`client_server_agree`).
-/

namespace RsProperties

open ByteMem StateExcept

namespace Client

inductive ProtocolVersion
  | v1
  | v2
  deriving DecidableEq, Repr

/-- The fixed-size V1 message. -/
structure PropertyMessage where
  cmd : ℕ
  name : Bytes
  value : Bytes

/-- `PropertyMessage::new`: both fields NUL-padded, with room for at least one NUL. -/
def PropertyMessage.new (cmd : ℕ) (name value : Bytes) : Except Error PropertyMessage :=
  if propNameMax ≤ name.length then
    .error (.invalidArgument
      s!"Property name length {name.length} exceeds PROP_NAME_MAX - 1 = {propNameMax - 1}")
  else if propValueMax ≤ value.length then
    .error (.invalidArgument
      s!"Property value length {value.length} exceeds PROP_VALUE_MAX - 1 = {propValueMax - 1}")
  else .ok {
    cmd := cmd
    name := name ++ List.replicate (propNameMax - name.length) 0
    value := value ++ List.replicate (propValueMax - value.length) 0 }

/-- `as_bytes` of the `repr(C)` struct, which has no padding. -/
def PropertyMessage.asBytes (order : ByteOrder) (m : PropertyMessage) : Bytes :=
  u32Bytes order m.cmd ++ (m.name ++ m.value)

/-! ### Sending -/

/-- `ServiceWriter::write_str`: the two fragments of a length-prefixed string. -/
def writeStr (order : ByteOrder) (value : Bytes) : Except Error (List Bytes) :=
  if 2 ^ 32 ≤ value.length then
    .error (.invalidArgument s!"string too long for wire: {value.length} bytes")
  else .ok [u32Bytes order value.length, value]

/-- `map_timeout_err`: the expiry of the socket's own timeout is named as such. -/
def mapTimeoutErr (timedOut : Bool) (msg doing : String) : Error :=
  if timedOut then .io s!"timed out {doing} (2s): {msg}" else .io msg

/-- The total budget of a `send` has run out. -/
def sendExpired (written total : ℕ) : Error :=
  .io s!"timed out sending property service request (2s total, {written}/{total} bytes sent)"

/-- The result of one `write_vectored`; a failure may be the expiry of the socket's timeout. -/
inductive WriteResult
  | wrote (n : ℕ)
  | interrupted
  | failed (timedOut : Bool) (msg : String)
  deriving DecidableEq, Repr

/-- The slices of one iteration: the fragments without the bytes that are already out. -/
def slicesFrom : ℕ → List Bytes → List Bytes
  | _, [] => []
  | skip, buf :: rest =>
    if buf.length ≤ skip then slicesFrom (skip - buf.length) rest
    else buf.drop skip :: slicesFrom 0 rest

/-- The loop of `send`, over the results of its writes; returns what has reached the wire. A write
accepts the front of what it is offered. The end of the list is the end of the time budget. -/
def sendLoop (buffers : List Bytes) : List WriteResult → ℕ → Bytes → Except Error Bytes
  | [], written, wire =>
    if buffers.flatten.length ≤ written then .ok wire
    else .error (sendExpired written buffers.flatten.length)
  | r :: results, written, wire =>
    if buffers.flatten.length ≤ written then .ok wire
    else
      match r with
      | .wrote n =>
        let out := (slicesFrom written buffers).flatten.take n
        if n = 0 then .error (.io "property service socket closed mid-write")
        else sendLoop buffers results (written + out.length) (wire ++ out)
      | .interrupted => sendLoop buffers results written wire
      | .failed timedOut msg =>
        .error (mapTimeoutErr timedOut msg "sending property service request")

def send (buffers : List Bytes) (results : List WriteResult) : Except Error Bytes :=
  sendLoop buffers results 0 []

/-- `set` up to the point where the whole request is on the wire. `connect` is the outcome of opening
the connection, `results` those of the writes. -/
def set (order : ByteOrder) (version : ProtocolVersion) (connect : Except Error Unit)
    (results : List WriteResult) (name value : Bytes) : Except Error Bytes := do
  validatePropertyName name
  validateValueLen name value
  match version with
  | .v1 =>
    if propNameMax ≤ name.length then
      .error (.invalidArgument s!"Property name is too long: {name.length}")
    else if propValueMax ≤ value.length then
      .error (.invalidArgument s!"Property value is too long: {value.length}")
    else do
      connect
      let propMsg ← PropertyMessage.new propMsgSetprop name value
      send [propMsg.asBytes order] results
  | .v2 =>
    if maxWireNameLen < name.length then
      .error (.invalidArgument
        s!"Property name exceeds the wire cap: {name.length} > {maxWireNameLen}")
    else if maxWireValueLen < value.length then
      .error (.invalidArgument
        s!"Property value exceeds the wire cap: {value.length} > {maxWireValueLen}")
    else do
      connect
      let nameBufs ← writeStr order name
      let valueBufs ← writeStr order value
      send (u32Bytes order propMsgSetprop2 :: (nameBufs ++ valueBufs)) results

/-! ### What is sent -/

theorem flatten_slicesFrom (skip : ℕ) (buffers : List Bytes) :
    (slicesFrom skip buffers).flatten = buffers.flatten.drop skip := by
  induction buffers generalizing skip with
  | nil => simp [slicesFrom]
  | cons buf rest ih =>
    rw [slicesFrom, List.flatten_cons, List.drop_append]
    split_ifs with h
    · rw [ih, List.drop_of_length_le h, List.nil_append]
    · rw [List.flatten_cons, ih, show skip - buf.length = 0 by omega]

/-- However the kernel cuts it up, a completed send has put all fragments on the wire, in order. -/
theorem sendLoop_eq_ok {buffers : List Bytes} {results : List WriteResult} {written : ℕ}
    {wire out : Bytes} (hw : written ≤ buffers.flatten.length)
    (hwire : wire = buffers.flatten.take written)
    (h : sendLoop buffers results written wire = .ok out) : out = buffers.flatten := by
  induction results generalizing written wire with
  | nil =>
    rw [sendLoop] at h
    split_ifs at h with hdone
    cases h
    rw [hwire, List.take_of_length_le hdone]
  | cons r results ih =>
    by_cases hdone : buffers.flatten.length ≤ written
    · have hout : sendLoop buffers (r :: results) written wire = .ok wire := by
        cases r <;> rw [sendLoop, if_pos hdone]
      rw [hout] at h
      cases h
      rw [hwire, List.take_of_length_le hdone]
    · cases r with
      | wrote n =>
        rw [sendLoop, if_neg hdone] at h
        simp only [flatten_slicesFrom] at h
        split_ifs at h
        refine ih ?_ ?_ h
        · rw [List.length_take, List.length_drop]
          omega
        · rw [hwire, List.length_take, List.length_drop, ← List.take_add]
          rcases le_total n (buffers.flatten.length - written) with hn | hn
          · rw [min_eq_left hn]
          · rw [min_eq_right hn, List.take_of_length_le (by omega), List.take_of_length_le (by omega)]
      | interrupted =>
        rw [sendLoop, if_neg hdone] at h
        exact ih hw hwire h
      | failed timedOut msg =>
        rw [sendLoop, if_neg hdone] at h
        cases h

theorem send_eq_ok {buffers : List Bytes} {results : List WriteResult} {out : Bytes}
    (h : send buffers results = .ok out) : out = buffers.flatten :=
  sendLoop_eq_ok (Nat.zero_le _) rfl h

/-- A kernel that takes everything at once ends the loop after one write. -/
theorem send_full {buffers : List Bytes} (h : buffers.flatten ≠ []) :
    send buffers [.wrote buffers.flatten.length] = .ok buffers.flatten := by
  have hlen : 0 < buffers.flatten.length := List.length_pos_of_ne_nil h
  rw [send, sendLoop, if_neg (by omega)]
  simp only [flatten_slicesFrom, List.drop_zero, List.take_length, List.nil_append, Nat.zero_add]
  rw [if_neg (by omega), sendLoop, if_pos le_rfl]

/-- The pairs the client's `set` accepts with a protocol version. -/
def Accepts (version : ProtocolVersion) (name value : Bytes) : Prop :=
  validatePropertyName name = .ok () ∧ validateValueLen name value = .ok () ∧
    match version with
    | .v1 => name.length < propNameMax ∧ value.length < propValueMax
    | .v2 => name.length ≤ maxWireNameLen ∧ value.length ≤ maxWireValueLen

/-- The request of a pair. -/
def request (order : ByteOrder) (version : ProtocolVersion) (name value : Bytes) : Bytes :=
  match version with
  | .v1 => Service.v1Frame order (name ++ List.replicate (propNameMax - name.length) 0)
      (value ++ List.replicate (propValueMax - value.length) 0)
  | .v2 => u32Bytes order propMsgSetprop2 ++ (u32Bytes order name.length ++ (name ++
      (u32Bytes order value.length ++ value)))

section Agreement

variable {order : ByteOrder} {version : ProtocolVersion} {name value : Bytes}

/-- What reaches the wire is the request of an accepted pair. -/
theorem set_eq_ok {connect : Except Error Unit} {results : List WriteResult} {wire : Bytes}
    (h : set order version connect results name value = .ok wire) :
    Accepts version name value ∧ wire = request order version name value := by
  rw [set.eq_def] at h
  obtain ⟨_, hn, h⟩ := except_bind_eq_ok.mp h
  obtain ⟨_, hv, h⟩ := except_bind_eq_ok.mp h
  cases version with
  | v1 =>
    simp only at h
    split_ifs at h with h1 h2
    obtain ⟨_, -, h⟩ := except_bind_eq_ok.mp h
    rw [PropertyMessage.new, if_neg h1, if_neg h2] at h
    refine ⟨⟨hn, hv, by omega, by omega⟩, ?_⟩
    rw [send_eq_ok h, List.flatten_singleton]
    rfl
  | v2 =>
    simp only at h
    split_ifs at h with h1 h2
    obtain ⟨_, -, h⟩ := except_bind_eq_ok.mp h
    obtain ⟨nameBufs, hnb, h⟩ := except_bind_eq_ok.mp h
    obtain ⟨valueBufs, hvb, h⟩ := except_bind_eq_ok.mp h
    rw [writeStr] at hnb hvb
    split_ifs at hnb hvb
    cases hnb
    cases hvb
    refine ⟨⟨hn, hv, by omega, by omega⟩, ?_⟩
    rw [send_eq_ok h]
    simp [request]

/-- An accepted pair is sent when the connection works. -/
theorem set_of_accepts (h : Accepts version name value) :
    set order version (.ok ()) [.wrote (request order version name value).length] name value =
      .ok (request order version name value) := by
  obtain ⟨hn, hv, hlim⟩ := h
  rw [set.eq_def, except_bind_ok hn, except_bind_ok hv]
  cases version with
  | v1 =>
    obtain ⟨h1, h2⟩ := hlim
    simp only
    rw [if_neg (by omega), if_neg (by omega), except_bind_ok rfl, PropertyMessage.new,
      if_neg (by omega), if_neg (by omega), except_bind_ok rfl]
    have hflat : [(PropertyMessage.mk propMsgSetprop
        (name ++ List.replicate (propNameMax - name.length) 0)
        (value ++ List.replicate (propValueMax - value.length) 0)).asBytes order].flatten =
          request order .v1 name value := by
      rw [List.flatten_singleton]
      rfl
    rw [← hflat]
    exact send_full (List.ne_nil_of_length_pos (by simp [PropertyMessage.asBytes]))
  | v2 =>
    obtain ⟨h1, h2⟩ := hlim
    have hn32 : ¬ 2 ^ 32 ≤ name.length := by
      rw [maxWireNameLen] at h1
      omega
    have hv32 : ¬ 2 ^ 32 ≤ value.length := by
      rw [maxWireValueLen] at h2
      omega
    simp only
    rw [if_neg (by omega), if_neg (by omega), except_bind_ok rfl, writeStr, if_neg hn32,
      except_bind_ok rfl, writeStr, if_neg hv32, except_bind_ok rfl]
    have hflat : (u32Bytes order propMsgSetprop2 :: ([u32Bytes order name.length, name] ++
        [u32Bytes order value.length, value])).flatten = request order .v2 name value := by
      simp [request]
    rw [← hflat]
    exact send_full (List.ne_nil_of_length_pos (by simp))

theorem nul_notMem_of_validateNameLoop {whole s : Bytes} {prevDot : Bool}
    (h : validateNameLoop whole prevDot s = .ok ()) : 0 ∉ s := by
  induction s generalizing prevDot with
  | nil => simp
  | cons c s ih =>
    rw [validateNameLoop] at h
    split_ifs at h with hc
    rw [List.mem_cons, not_or]
    refine ⟨fun h0 => hc ?_, ih h⟩
    rw [← h0]
    decide

/-- An accepted name has no NUL. -/
theorem nul_notMem_of_validatePropertyName (h : validatePropertyName name = .ok ()) :
    0 ∉ name := by
  rw [validatePropertyName] at h
  split_ifs at h
  exact nul_notMem_of_validateNameLoop h

/-- Decoding a padded field gives back what was padded. -/
theorem takeWhile_padded {s : Bytes} (h0 : 0 ∉ s) (n : ℕ) {k : ℕ} (hk : s.length ≤ k) :
    ((s ++ List.replicate n 0).take k).takeWhile (· != 0) = s := by
  have hall : ∀ c ∈ s, (c != 0) = true := fun c hc => by
    rw [bne_iff_ne]
    exact fun he => h0 (he ▸ hc)
  rw [List.take_append, List.take_of_length_le hk, List.takeWhile_append_of_pos hall,
    List.take_replicate, List.takeWhile_replicate]
  simp

/-- **A request is a frame of its pair.** -/
theorem frame_request {name value : Str} (h : Accepts version name.bytes value.bytes)
    (rest : Bytes) :
    Service.frame order (request order version name.bytes value.bytes ++ rest) =
      some (⟨name, value⟩, rest) := by
  obtain ⟨hn, hv, hlim⟩ := h
  have hn0 := nul_notMem_of_validatePropertyName hn
  have hv0 := (validateValueLen_eq_ok.mp hv).1
  rw [Service.frame_eq_some]
  cases version with
  | v1 =>
    obtain ⟨h1, h2⟩ := hlim
    refine .inr ⟨_, _, ⟨?_, ?_, ?_, ?_⟩, rfl⟩
    · rw [List.length_append, List.length_replicate]
      omega
    · rw [List.length_append, List.length_replicate]
      omega
    · exact (takeWhile_padded hn0 _ (by omega)).symm
    · exact (takeWhile_padded hv0 _ (by omega)).symm
  | v2 => exact .inl ⟨⟨hlim.1, hlim.2, hn0, hv0⟩, rfl⟩

end Agreement

/-- **Client and server agree, in both protocols.** Every pair the client accepts is sent, and whatever
the client has put on the wire, the handler forwards exactly that name and value, which the service's
policy lets through to `set`; so the frames of the two protocols deliver the same message. -/
theorem client_server_agree (order : ByteOrder) (name value : Str)
    (reply : Service.PropertyMessage → Except String Bool)
    (write : Bytes → Except Service.IoError Unit) (rest : Bytes) :
    (∀ version, Accepts version name.bytes value.bytes → ∃ results wire,
      set order version (.ok ()) results name.bytes value.bytes = .ok wire) ∧
    (∀ version connect results wire,
      set order version connect results name.bytes value.bytes = .ok wire →
        Accepts version name.bytes value.bytes ∧
        Service.forwards reply write order (wire ++ rest) = [⟨name, value⟩] ∧
        ∀ sp, Service.handle ⟨name, value⟩ sp =
          (succeeded (SystemProperties.set name value sp),
            finalState (SystemProperties.set name value sp))) ∧
    ∀ connect results wire connect' results' wire',
      set order .v1 connect results name.bytes value.bytes = .ok wire →
      set order .v2 connect' results' name.bytes value.bytes = .ok wire' →
        Service.forwards reply write order (wire ++ rest) =
          Service.forwards reply write order (wire' ++ rest) := by
  have hdec : ∀ version connect results wire,
      set order version connect results name.bytes value.bytes = .ok wire →
        Service.forwards reply write order (wire ++ rest) = [⟨name, value⟩] := by
    intro version connect results wire h
    obtain ⟨hacc, rfl⟩ := set_eq_ok h
    have hf : Service.forwards reply write order
        (request order version name.bytes value.bytes ++ rest) = ((Service.frame order
          (request order version name.bytes value.bytes ++ rest)).map Prod.fst).toList :=
      Service.forwards_handleClient ⟨_, []⟩
    rw [hf, frame_request hacc rest]
    rfl
  refine ⟨fun version h => ⟨_, _, set_of_accepts h⟩, fun version connect results wire h => ?_,
    fun connect results wire connect' results' wire' h h' => ?_⟩
  · obtain ⟨hacc, -⟩ := set_eq_ok h
    exact ⟨hacc, hdec _ _ _ _ h, fun sp => Service.handle_of_valid hacc.1 hacc.2.1 sp⟩
  · rw [hdec _ _ _ _ h, hdec _ _ _ _ h']

/-- A pair both protocols carry, with a V1 frame that leaves in two pieces. -/
theorem client_server_agree_sample :
    ∃ wire, set .little .v1 (.ok ()) [.wrote 7, .interrupted, .wrote 128] (ascii "a.b")
        (ascii "on") = .ok wire ∧
      Service.forwards (fun _ => .ok true) (fun _ => .ok ()) .little wire =
        [⟨⟨ascii "a.b", by decide⟩, ⟨ascii "on", by decide⟩⟩] := by
  have hsend : set .little .v1 (.ok ()) [.wrote 7, .interrupted, .wrote 128] (ascii "a.b")
      (ascii "on") = .ok (request .little .v1 (ascii "a.b") (ascii "on")) := by decide +kernel
  obtain ⟨-, hrun, -⟩ := client_server_agree .little ⟨ascii "a.b", by decide⟩
    ⟨ascii "on", by decide⟩ (fun _ => .ok true) (fun _ => .ok ()) []
  obtain ⟨-, hf, -⟩ := hrun .v1 (.ok ()) _ _ hsend
  rw [List.append_nil] at hf
  exact ⟨_, hsend, hf⟩

end Client

end RsProperties

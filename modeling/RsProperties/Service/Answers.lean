import RsProperties.Service.Grammar
import RsProperties.Service.Properties

/-!
# The status word of a V2 request

After the command word, every way out of `handle_setprop2` is meant to pass a status word: the code
answers a failed read, an over-long length, a bad string and each outcome of the service. The exception
is the very first read, of the name's length, whose error leaves through `?`. So a request is answered,
with the right word and once, exactly if the peer sent those four bytes.

What the handler forwards is known from the frame grammar. Here the environment also records what is
written, and the two are put together by projection.
-/

namespace RsProperties

open ByteMem Process

namespace Service

section Answers

variable (reply : PropertyMessage → Except String Bool)

/-- A stream together with the words written to its peer, who takes them all. -/
def recordEnv : (o : SocketOp) → Stream × List Bytes → o.Ans × (Stream × List Bytes)
  | .readExact n, (s, w) =>
    let (r, s') := streamEnv reply (fun _ => .ok ()) (.readExact n) s
    (r, (s', w))
  | .writeAll bytes, (s, w) => (.ok (), (s, w ++ [bytes]))
  | .ask m, (s, w) =>
    let (r, s') := streamEnv reply (fun _ => .ok ()) (.ask m) s
    (r, (s', w))

/-- The words `handle_client` writes on a stream. -/
def responses (order : ByteOrder) (bytes : Bytes) : List Bytes :=
  (exec (recordEnv reply) (handleClient order) (⟨bytes, []⟩, [])).2.2

/-- The status of a request that forwarded `asked`. -/
def statusOf (asked : List PropertyMessage) : ℤ :=
  if asked.any fun m => reply m == .ok true then propSuccess else propError

/-- Handler code that neither forwards nor writes. -/
def Quiet {α : Type} (x : HandlerM α) : Prop := ∀ s w,
  (exec (recordEnv reply) x (s, w)).2.1.forwarded = s.forwarded ∧
    (exec (recordEnv reply) x (s, w)).2.2 = w

/-- Handler code that writes one word, the status of what it forwards. -/
def AnswersOnce (order : ByteOrder) (x : HandlerM Unit) : Prop := ∀ s w,
  ∃ asked, (exec (recordEnv reply) x (s, w)).2.1.forwarded = s.forwarded ++ asked ∧
    (exec (recordEnv reply) x (s, w)).2.2 = w ++ [i32Bytes order (statusOf reply asked)]

variable {reply} {α β : Type} {order : ByteOrder}

/-! ### Reading is quiet -/

theorem quiet_pure (a : α) : Quiet reply (pure a) := fun _ _ => ⟨rfl, rfl⟩

theorem quiet_throw (e : Error) : Quiet reply (throw e : HandlerM α) := fun _ _ => ⟨rfl, rfl⟩

theorem Quiet.bind {x : HandlerM α} {f : α → HandlerM β} (h : Quiet reply x)
    (hf : ∀ a, Quiet reply (f a)) : Quiet reply (x >>= f) := by
  intro s w
  obtain ⟨hfwd, hw⟩ := h s w
  rcases hx : exec (recordEnv reply) x (s, w) with ⟨_ | a, s', w'⟩ <;> rw [hx] at hfwd hw
  · rw [exec_bind_error hx]
    exact ⟨hfwd, hw⟩
  · rw [exec_bind_ok hx]
    exact ⟨(hf a s' w').1.trans hfwd, (hf a s' w').2.trans hw⟩

theorem quiet_readExact (n : ℕ) : Quiet reply (readExact n) := by
  intro s w
  have hx : exec (recordEnv reply) (await (.readExact n)) (s, w) =
      (.ok (recordEnv reply (.readExact n) (s, w)).1, (recordEnv reply (.readExact n) (s, w)).2) :=
    rfl
  rw [readExact, exec_bind_ok hx, recordEnv, streamEnv]
  split_ifs <;> exact ⟨rfl, rfl⟩

theorem quiet_readU32 : Quiet reply (readU32 order) :=
  (quiet_readExact 4).bind fun _ => quiet_pure _

theorem quiet_readString (len : ℕ) : Quiet reply (readString len) := by
  rw [readString]
  split_ifs
  · exact quiet_pure _
  · refine (quiet_readExact len).bind fun buf => ?_
    split_ifs
    · exact quiet_throw _
    · cases fromUtf8 buf with
      | none => exact quiet_throw _
      | some str => exact quiet_pure str

/-! ### One answer on every way out -/

theorem answersOnce_refuse (e : Error) : AnswersOnce reply order (refuse order e) :=
  fun s _ => ⟨[], (List.append_nil s.forwarded).symm, rfl⟩

theorem Quiet.bind_answersOnce {x : HandlerM α} {f : α → HandlerM Unit} (h : Quiet reply x)
    (hf : ∀ a, AnswersOnce reply order (f a)) :
    AnswersOnce reply order (tryCatch x (refuse order) >>= f) := by
  intro s w
  obtain ⟨hfwd, hw⟩ := h s w
  rcases hx : exec (recordEnv reply) x (s, w) with ⟨e | a, s', w'⟩ <;> rw [hx] at hfwd hw
  · obtain rfl : w' = w := hw
    have hrefuse : exec (recordEnv reply) (refuse order e : HandlerM α) (s', w') =
        (.error e, (s', w' ++ [i32Bytes order propError])) := rfl
    rw [exec_bind_error ((exec_tryCatch_error hx).trans hrefuse)]
    exact ⟨[], by rw [List.append_nil]; exact hfwd, rfl⟩
  · obtain rfl : w' = w := hw
    rw [exec_bind_ok (exec_tryCatch_ok hx)]
    obtain ⟨asked, h1, h2⟩ := hf a s' w'
    exact ⟨asked, by rw [h1]; exact congrArg (· ++ asked) hfwd, h2⟩

/-- The last step: the reply of the service becomes the status. -/
theorem answersOnce_ask {m : PropertyMessage} {f : Except String Bool → HandlerM Unit}
    (hf : f (reply m) = sendResponse order (statusOf reply [m])) :
    AnswersOnce reply order (await (.ask m) >>= f) := by
  intro s w
  have hx : exec (recordEnv reply) (await (.ask m)) (s, w) =
      (.ok (reply m), ({ s with forwarded := s.forwarded ++ [m] }, w)) := rfl
  rw [exec_bind_ok hx, hf]
  exact ⟨[m], rfl, rfl⟩

theorem exec_readExact_of_le {n : ℕ} {s : Stream} (h : n ≤ s.rest.length) (w : List Bytes) :
    exec (recordEnv reply) (readExact n) (s, w) =
      (.ok (s.rest.take n), ({ s with rest := s.rest.drop n }, w)) := by
  have hx : exec (recordEnv reply) (await (.readExact n)) (s, w) =
      (.ok (recordEnv reply (.readExact n) (s, w)).1, (recordEnv reply (.readExact n) (s, w)).2) :=
    rfl
  rw [readExact, exec_bind_ok hx, recordEnv, streamEnv, if_pos h]
  rfl

theorem exec_readExact_of_lt {n : ℕ} {s : Stream} (h : s.rest.length < n) (w : List Bytes) :
    exec (recordEnv reply) (readExact n) (s, w) =
      (.error IoError.unexpectedEof.toError, ({ s with rest := [] }, w)) := by
  have hx : exec (recordEnv reply) (await (.readExact n)) (s, w) =
      (.ok (recordEnv reply (.readExact n) (s, w)).1, (recordEnv reply (.readExact n) (s, w)).2) :=
    rfl
  rw [readExact, exec_bind_ok hx, recordEnv, streamEnv, if_neg (by omega)]
  rfl

variable (reply order)

/-- The request is answered once if the length of the name arrives, and not at all otherwise. -/
theorem setprop2_written (s : Stream) (w : List Bytes) :
    (4 ≤ s.rest.length → ∃ asked,
      (exec (recordEnv reply) (handleSetprop2 order) (s, w)).2.1.forwarded =
        s.forwarded ++ asked ∧
      (exec (recordEnv reply) (handleSetprop2 order) (s, w)).2.2 =
        w ++ [i32Bytes order (statusOf reply asked)]) ∧
    (s.rest.length < 4 → (exec (recordEnv reply) (handleSetprop2 order) (s, w)).2.2 = w) := by
  refine ⟨fun h => ?_, fun h => ?_⟩
  · have hlen : exec (recordEnv reply) (readU32 order) (s, w) =
        (.ok (ofU32Bytes order (s.rest.take 4)), ({ s with rest := s.rest.drop 4 }, w)) :=
      exec_bind_ok (exec_readExact_of_le h w)
    rw [handleSetprop2, exec_bind_ok hlen]
    split_ifs
    · exact answersOnce_refuse _ { s with rest := s.rest.drop 4 } w
    refine ((quiet_readString _).bind_answersOnce fun name => ?_) { s with rest := s.rest.drop 4 } w
    refine quiet_readU32.bind_answersOnce fun valueLen => ?_
    split_ifs
    · exact answersOnce_refuse _
    refine (quiet_readString _).bind_answersOnce fun value => ?_
    refine answersOnce_ask ?_
    rw [statusOf, List.any_cons, List.any_nil, Bool.or_false]
    rcases reply ⟨name, value⟩ with e | _ | _ <;> rfl
  · have hlen : exec (recordEnv reply) (readU32 order) (s, w) =
        (.error IoError.unexpectedEof.toError, ({ s with rest := [] }, w)) :=
      exec_bind_error (exec_readExact_of_lt h w)
    rw [handleSetprop2, exec_bind_error hlen]

/-- What the recording run forwards is what the stream run forwards. -/
theorem recordEnv_forwarded (bytes : Bytes) :
    (exec (recordEnv reply) (handleClient order) (⟨bytes, []⟩, [])).2.1.forwarded =
      ((frame order bytes).map Prod.fst).toList := by
  have hsees : ∀ o (s : Stream × List Bytes), streamEnv reply (fun _ => .ok ()) o s.1 =
      ((recordEnv reply o s).1, (recordEnv reply o s).2.1) := by
    intro o s
    cases o <;> rfl
  have hfwd : (exec (streamEnv reply fun _ => .ok ()) (handleClient order) ⟨bytes, []⟩).2.forwarded =
      [] ++ ((frame order bytes).map Prod.fst).toList := forwards_handleClient ⟨bytes, []⟩
  rw [exec, run_project hsees (handleClient order).run (⟨bytes, []⟩, [])] at hfwd
  exact hfwd

/-- On a V2 stream: the words written, by the number of bytes behind the command word. -/
theorem responses_setprop2 (tail : Bytes) :
    (4 ≤ tail.length → responses reply order (u32Bytes order propMsgSetprop2 ++ tail) =
      [i32Bytes order (statusOf reply ((setprop2 order tail).map Prod.fst).toList)]) ∧
    (tail.length < 4 → responses reply order (u32Bytes order propMsgSetprop2 ++ tail) = []) := by
  have hcmd : word order (u32Bytes order propMsgSetprop2 ++ tail) = some (propMsgSetprop2, tail) :=
    word_eq_some.mpr ⟨by decide, rfl⟩
  have hframe : frame order (u32Bytes order propMsgSetprop2 ++ tail) = setprop2 order tail := by
    rw [frame, parser_bind_of_some hcmd, if_neg (by decide), if_pos rfl]
  have hfwd := recordEnv_forwarded reply order (u32Bytes order propMsgSetprop2 ++ tail)
  have hrun : exec (recordEnv reply) (handleClient order)
      (⟨u32Bytes order propMsgSetprop2 ++ tail, []⟩, []) =
      exec (recordEnv reply) (handleSetprop2 order) (⟨tail, []⟩, []) := by
    have hx : exec (recordEnv reply) (await (.readExact 4))
        (⟨u32Bytes order propMsgSetprop2 ++ tail, []⟩, []) =
        (.ok (.ok (u32Bytes order propMsgSetprop2)), (⟨tail, []⟩, [])) := by
      have hle : 4 ≤ (u32Bytes order propMsgSetprop2 ++ tail).length := by
        rw [List.length_append, length_u32Bytes]
        omega
      have htake : (u32Bytes order propMsgSetprop2 ++ tail).take 4 = _ :=
        List.take_left' (length_u32Bytes order propMsgSetprop2)
      have hdrop : (u32Bytes order propMsgSetprop2 ++ tail).drop 4 = _ :=
        List.drop_left' (length_u32Bytes order propMsgSetprop2)
      change (Except.ok (recordEnv reply (.readExact 4) _).1, (recordEnv reply (.readExact 4) _).2) =
        _
      rw [recordEnv, streamEnv, if_pos hle, htake, hdrop]
    rw [handleClient, exec_bind_ok hx]
    simp only [ofU32Bytes_u32Bytes]
    rw [if_neg (by decide), if_pos (by decide)]
  rw [hframe] at hfwd
  rw [responses, hrun]
  rw [hrun] at hfwd
  refine ⟨fun h => ?_, fun h => (setprop2_written reply order ⟨tail, []⟩ []).2 h⟩
  obtain ⟨asked, h1, h2⟩ := (setprop2_written reply order ⟨tail, []⟩ []).1 h
  rw [h1] at hfwd
  rw [h2, ← hfwd]
  rfl

/-- A request succeeded: the stream carries a frame, and the service took its message. -/
theorem statusOf_eq_success (tail : Bytes) :
    statusOf reply ((setprop2 order tail).map Prod.fst).toList = propSuccess ↔
      ∃ m, V2Carries m ∧ v2Frame order m <+: u32Bytes order propMsgSetprop2 ++ tail ∧
        reply m = .ok true := by
  have hframe : ∀ m, m ∈ ((setprop2 order tail).map Prod.fst).toList ↔
      V2Carries m ∧ v2Frame order m <+: u32Bytes order propMsgSetprop2 ++ tail := by
    intro m
    rw [Option.mem_toList, Option.map_eq_some_iff]
    constructor
    · rintro ⟨⟨_, rest⟩, h, rfl⟩
      obtain ⟨hc, rfl⟩ := setprop2_eq_some.mp h
      exact ⟨hc, rest, by rw [v2Frame, List.append_assoc (u32Bytes order propMsgSetprop2)]⟩
    · rintro ⟨hc, rest, h⟩
      rw [v2Frame, List.append_assoc (u32Bytes order propMsgSetprop2),
        List.append_cancel_left_eq] at h
      exact ⟨(m, rest), setprop2_eq_some.mpr ⟨hc, h.symm⟩, rfl⟩
  rw [statusOf]
  constructor
  · intro h
    split_ifs at h with hany
    · obtain ⟨m, hm, hr⟩ := List.any_eq_true.mp hany
      exact ⟨m, ((hframe m).mp hm).1, ((hframe m).mp hm).2, by simpa using hr⟩
    · exact absurd h (by decide)
  · rintro ⟨m, hc, hp, hr⟩
    rw [if_pos (List.any_eq_true.mpr ⟨m, (hframe m).mpr ⟨hc, hp⟩, by simpa using hr⟩)]

theorem statusOf_eq_success_or_error (asked : List PropertyMessage) :
    statusOf reply asked = propSuccess ∨ statusOf reply asked = propError := by
  rw [statusOf]
  split_ifs
  · exact .inl rfl
  · exact .inr rfl

end Answers

/-- The service behind the handler: it applies a message to its store, unless the request does not
reach it. -/
def askService (store : SystemProperties) (failure : Option String) (m : PropertyMessage) :
    Except String Bool :=
  match failure with
  | some msg => .error msg
  | none => .ok (handle m store).1

/-- One status word answers the stream: success if it carries a frame whose message the service took,
the error otherwise. -/
def AnsweredRight (store : SystemProperties) (failure : Option String) (order : ByteOrder)
    (bytes : Bytes) : Prop :=
  ∃ status, responses (askService store failure) order bytes = [i32Bytes order status] ∧
    (status = propSuccess ↔ ∃ m, V2Carries m ∧ v2Frame order m <+: bytes ∧ failure = none ∧
      (handle m store).1 = true) ∧
    (status = propError ↔ ¬ ∃ m, V2Carries m ∧ v2Frame order m <+: bytes ∧ failure = none ∧
      (handle m store).1 = true)

theorem askService_eq_true {store : SystemProperties} {failure : Option String}
    {m : PropertyMessage} :
    askService store failure m = .ok true ↔ failure = none ∧ (handle m store).1 = true := by
  cases failure <;> simp [askService]

/-- **When a V2 request is answered.** A stream that starts with the V2 command word gets exactly the
status word it should get if at least four bytes follow the command word, and only then: the handler
leaves without a word when the length of the name is cut off. -/
theorem handleClient_answers_iff (store : SystemProperties) (failure : Option String)
    (order : ByteOrder) (tail : Bytes) :
    AnsweredRight store failure order (u32Bytes order propMsgSetprop2 ++ tail) ↔
      4 ≤ tail.length := by
  obtain ⟨hlong, hshort⟩ := responses_setprop2 (askService store failure) order tail
  constructor
  · rintro ⟨status, hresp, -⟩
    by_contra hlt
    rw [hshort (by omega)] at hresp
    cases hresp
  · intro hlen
    have hsucc := statusOf_eq_success (askService store failure) order tail
    simp only [askService_eq_true] at hsucc
    refine ⟨_, hlong hlen, hsucc, ?_⟩
    rw [← hsucc]
    rcases statusOf_eq_success_or_error (askService store failure)
      ((setprop2 order tail).map Prod.fst).toList with h | h <;> rw [h] <;> decide

/-- The peer sends the command word and closes: nothing is written. -/
theorem handleClient_silent :
    ¬ ∀ store failure order tail,
      AnsweredRight store failure order (u32Bytes order propMsgSetprop2 ++ tail) := by
  intro hall
  obtain ⟨status, hresp, -⟩ := hall ⟨⟨fun _ => 0, infoHeaderSize, le_rfl⟩, [], .newRw⟩ none .little []
  have hnone := (responses_setprop2 (askService
    ⟨⟨fun _ => 0, infoHeaderSize, le_rfl⟩, [], .newRw⟩ none) .little []).2 (by decide)
  rw [hnone] at hresp
  cases hresp

end Service

end RsProperties

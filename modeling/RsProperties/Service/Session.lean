import RsProperties.Service.Grammar

/-!
# What one connection does

Whatever the peer sends and whenever it disappears, a connection asks at most once, for the message its
input stands for, and it tells the peer about success only after a positive reply. This is a statement
about all answers the environment can give, so it is a `Safe`ty property of `handle_client` under the
monitor of a session.
-/

namespace RsProperties

open ByteMem Process

namespace Service

/-- What is known about a session: the bytes not yet read, the message asked for with its reply, and
whether the session has begun to answer. -/
structure Session where
  rest : Bytes
  asked : Option (PropertyMessage × Bool)
  answered : Bool

section Monitor

variable (order : ByteOrder) (input : Bytes)

/-- The monitor of a connection on which the peer sends `input`. Reads may fail at any time; a
successful one delivers the next bytes. A reply is the one of the handler of the message. -/
def sessionMonitor : Monitor SocketOp SocketOp.Ans Session where
  allows v
    | .readExact _ => True
    | .writeAll bytes =>
      (bytes = i32Bytes order propSuccess ∧ ∃ m, v.asked = some (m, true)) ∨
        (bytes = i32Bytes order propError ∧ ∀ m, v.asked ≠ some (m, true))
    | .ask m => v.asked = none ∧ v.answered = false ∧ ∃ rest, frame order input = some (m, rest)
  admits v
    | .readExact n, r => ∀ bs, r = .ok bs → n ≤ v.rest.length ∧ bs = v.rest.take n
    | .writeAll _, _ => True
    | .ask _, r => ∃ b, r = .ok b
  next v
    | .readExact n, .ok _ => { v with rest := v.rest.drop n }
    | .readExact _, .error _ => v
    | .writeAll _, _ => { v with answered := true }
    | .ask m, .ok b => { v with asked := some (m, b) }
    | .ask m, .error _ => { v with asked := some (m, false) }

/-- Handler code that reads along a parser: from a session in which the rest of the frame is what `p`
and then `q` make of the unread bytes, to one in which it is what `q` makes of them. -/
def SafeReads {α : Type} (x : HandlerM α) (p : Parser α) : Prop :=
  ∀ (v : Session) (q : α → Parser PropertyMessage), v.asked = none → v.answered = false →
    frame order input = (p >>= q) v.rest →
    Safe (sessionMonitor order input) (fun t r => t.asked = none ∧
      ∀ a, r = .ok a → t.answered = false ∧ frame order input = q a t.rest) v x.run

/-- The postcondition of a whole session: nothing beyond what the monitor has checked. -/
abbrev SafeSession (v : Session) (x : HandlerM Unit) : Prop :=
  Safe (sessionMonitor order input) (fun _ _ => True) v x.run

variable {order input} {α β : Type}

theorem safeReads_readExact (n : ℕ) : SafeReads order input (readExact n) (takeBytes n) := by
  intro v q hasked hans hframe
  refine Safe.except_op_bind trivial fun r hr => ?_
  cases r with
  | error e => exact ⟨hasked, fun bs h => by cases h⟩
  | ok bs =>
    obtain ⟨hlen, rfl⟩ := hr bs rfl
    refine ⟨hasked, fun bs h => ?_⟩
    cases h
    refine ⟨hans, ?_⟩
    rw [hframe, parser_bind_of_some (if_pos hlen)]
    rfl

theorem safeReads_pure (a : α) : SafeReads order input (pure a) (pure a) := by
  refine fun v q hasked hans hframe => ⟨hasked, fun b h => ?_⟩
  cases h
  exact ⟨hans, hframe⟩

theorem safeReads_throw (e : Error) : SafeReads order input (throw e : HandlerM α) failure :=
  fun _ _ hasked _ _ => ⟨hasked, fun a h => by cases h⟩

theorem parser_bind_assoc (p : Parser α) (f : α → Parser β) (q : β → Parser PropertyMessage)
    (bs : Bytes) : ((p >>= f) >>= q) bs = (p >>= fun a => f a >>= q) bs := by
  cases hp : p bs with
  | none => rw [parser_bind_of_none hp, parser_bind_of_none (parser_bind_of_none hp)]
  | some r =>
    rw [parser_bind_of_some hp]
    cases hf : f r.1 r.2 with
    | none =>
      rw [parser_bind_of_none hf, parser_bind_of_none (by rw [parser_bind_of_some hp, hf])]
    | some r' =>
      rw [parser_bind_of_some hf]
      exact parser_bind_of_some (by rw [parser_bind_of_some hp, hf])

theorem SafeReads.bind {x : HandlerM α} {p : Parser α} {f : α → HandlerM β} {g : α → Parser β}
    (h : SafeReads order input x p) (hf : ∀ a, SafeReads order input (f a) (g a)) :
    SafeReads order input (x >>= f) (p >>= g) := by
  intro v q hasked hans hframe
  rw [parser_bind_assoc] at hframe
  refine Safe.except_bind (h v _ hasked hans hframe) (fun t a ht => ?_) fun t e ht => ?_
  · obtain ⟨hans', hframe'⟩ := ht.2 a rfl
    exact hf a t q ht.1 hans' hframe'
  · exact ⟨ht.1, fun a he => by cases he⟩

/-- Giving up with an answer is safe before anything was asked. -/
theorem safe_refuse {v : Session} (hasked : v.asked = none) (e : Error)
    {Q : Session → Except Error α → Prop} (hQ : Q { v with answered := true } (.error e)) :
    Safe (sessionMonitor order input) Q v (refuse order e : HandlerM α).run :=
  Safe.except_op_bind (.inr ⟨rfl, by simp [hasked]⟩) fun _ _ => hQ

theorem SafeReads.catch_refuse {x : HandlerM α} {p : Parser α} (h : SafeReads order input x p) :
    SafeReads order input (tryCatch x (refuse order)) p := by
  intro v q hasked hans hframe
  refine Safe.except_tryCatch (h v q hasked hans hframe) (fun t a ht => ht) fun t e ht => ?_
  exact safe_refuse ht.1 e ⟨ht.1, fun a he => by cases he⟩

theorem safeReads_readU32 : SafeReads order input (readU32 order) (word order) :=
  (safeReads_readExact 4).bind fun _ => safeReads_pure _

theorem safeReads_readString (len : ℕ) :
    SafeReads order input (readString len) (wireString len) := by
  rw [readString]
  split_ifs with h0
  · subst h0
    intro v q hasked hans hframe
    have hw : wireString 0 v.rest = some (⟨[], rfl⟩, v.rest) :=
      wireString_eq_some.mpr ⟨rfl, by simp, rfl⟩
    refine ⟨hasked, fun a h => ?_⟩
    cases h
    rw [parser_bind_of_some hw] at hframe
    exact ⟨hans, hframe⟩
  · refine (safeReads_readExact len).bind fun buf => ?_
    split_ifs
    · exact safeReads_throw _
    · cases fromUtf8 buf with
      | none => exact safeReads_throw _
      | some str => exact safeReads_pure str

/-- Read a part of the frame, then go on. -/
theorem SafeReads.bind_session {x : HandlerM α} {p : Parser α} {f : α → HandlerM Unit}
    {q : α → Parser PropertyMessage} (h : SafeReads order input x p) {v : Session}
    (hasked : v.asked = none) (hans : v.answered = false)
    (hframe : frame order input = (p >>= q) v.rest)
    (hf : ∀ a t, t.asked = none → t.answered = false → frame order input = q a t.rest →
      SafeSession order input t (f a)) : SafeSession order input v (x >>= f) := by
  refine Safe.except_bind (h v q hasked hans hframe) (fun t a ht => ?_) fun _ _ _ => trivial
  obtain ⟨hans', hframe'⟩ := ht.2 a rfl
  exact hf a t ht.1 hans' hframe'

/-- Answering is safe when the status is the reply. -/
theorem safe_sendResponse {v : Session} {code : ℤ}
    (h : (code = propSuccess ∧ ∃ m, v.asked = some (m, true)) ∨
      (code = propError ∧ ∀ m, v.asked ≠ some (m, true))) :
    SafeSession order input v (sendResponse order code) := by
  refine Safe.except_op_bind ?_ fun r _ => ?_
  · exact h.imp (And.imp_left (congrArg _)) (And.imp_left (congrArg _))
  · cases r <;> trivial

theorem safe_setprop2 {v : Session} (hasked : v.asked = none) (hans : v.answered = false)
    (hframe : frame order input = setprop2 order v.rest) :
    SafeSession order input v (handleSetprop2 order) := by
  refine safeReads_readU32.bind_session hasked hans hframe fun nameLen v hasked hans hframe => ?_
  split_ifs at hframe ⊢ with hcap
  · exact safe_refuse hasked _ trivial
  refine (safeReads_readString nameLen).catch_refuse.bind_session hasked hans hframe
    fun name v hasked hans hframe => ?_
  refine safeReads_readU32.catch_refuse.bind_session hasked hans hframe
    fun valueLen v hasked hans hframe => ?_
  split_ifs at hframe ⊢ with hcap'
  · exact safe_refuse hasked _ trivial
  refine (safeReads_readString valueLen).catch_refuse.bind_session hasked hans hframe
    fun value v hasked hans hframe => ?_
  refine Safe.except_op_bind ⟨hasked, hans, v.rest, hframe⟩ ?_
  rintro r ⟨b, rfl⟩
  cases b with
  | true => exact safe_sendResponse (.inl ⟨rfl, ⟨name, value⟩, rfl⟩)
  | false => exact safe_sendResponse (.inr ⟨rfl, fun m h => by cases h⟩)

theorem safe_setpropV1 {v : Session} (hasked : v.asked = none) (hans : v.answered = false)
    (hframe : frame order input = setpropV1 v.rest) :
    SafeSession order input v handleSetpropV1 := by
  refine (safeReads_readExact propNameMax).bind_session hasked hans hframe
    fun nameBuf v hasked hans hframe => ?_
  refine (safeReads_readExact propValueMax).bind_session hasked hans hframe
    fun valueBuf v hasked hans hframe => ?_
  cases hn : stringFromFixed (nameBuf.set (propNameMax - 1) 0) with
  | error e => trivial
  | ok name =>
    cases hv : stringFromFixed (valueBuf.set (propValueMax - 1) 0) with
    | error e => trivial
    | ok value =>
      rw [hn, hv] at hframe
      have hask : SafeSession order input v (await (.ask ⟨name, value⟩) >>= fun _ => pure ()) :=
        Safe.except_op_bind ⟨hasked, hans, v.rest, hframe⟩ fun _ _ => trivial
      exact hask

/-- **Every session is safe**: one `ask` at most, for the message of the input, and no status word that
contradicts the reply. -/
theorem safe_handleClient : SafeSession order input ⟨input, none, false⟩ (handleClient order) := by
  refine Safe.except_op_bind trivial fun r hr => ?_
  cases r with
  | error e => cases e <;> trivial
  | ok cmdBuf =>
    obtain ⟨hlen, rfl⟩ := hr _ rfl
    have ht : takeBytes 4 input = some (input.take 4, input.drop 4) := if_pos hlen
    have hw : word order input = some (ofU32Bytes order (input.take 4), input.drop 4) :=
      parser_bind_of_some ht
    have hframe : frame order input = _ := parser_bind_of_some hw
    simp only
    split_ifs at hframe ⊢
    · exact safe_setpropV1 rfl rfl hframe
    · exact safe_setprop2 rfl rfl hframe
    · exact safe_sendResponse (.inr ⟨rfl, fun m h => by cases h⟩)

end Monitor

end Service

end RsProperties

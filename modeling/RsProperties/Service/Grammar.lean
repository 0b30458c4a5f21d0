import RsProperties.Service.Handler

/-!
# The frames the handler accepts

The reading part of `handle_client` is a parser in disguise: an exact read takes bytes off the front
of the stream, and every failure ends the connection before anything is forwarded. `frame` is that
parser, `Reads` relates handler code to a parser, and `frame_eq_some` gives the grammar: a V2 frame
carries its strings behind their lengths, a V1 frame in two fixed fields.

`forwards` are the messages a connection forwards on a given stream, whatever the service replies and
whether or not its answers can still be written.
-/

namespace RsProperties

open ByteMem

namespace Service

/-! ### The parser -/

/-- Parsers over the bytes still to be read. -/
abbrev Parser := StateT Bytes Option

def takeBytes (n : ℕ) : Parser Bytes := fun bs =>
  if n ≤ bs.length then some (bs.take n, bs.drop n) else none

def word (order : ByteOrder) : Parser ℕ := do
  let bs ← takeBytes 4
  return ofU32Bytes order bs

/-- A string of a given length, without NUL and in UTF-8. -/
def wireString (len : ℕ) : Parser Str := do
  let bs ← takeBytes len
  if bs.contains 0 then failure
  else
    match fromUtf8 bs with
    | some s => return s
    | none => failure

/-- The V1 request behind its command word. Both fields are read before either is decoded. -/
def setpropV1 : Parser PropertyMessage := do
  let nameBuf ← takeBytes propNameMax
  let valueBuf ← takeBytes propValueMax
  match stringFromFixed (nameBuf.set (propNameMax - 1) 0),
      stringFromFixed (valueBuf.set (propValueMax - 1) 0) with
  | .ok name, .ok value => return ⟨name, value⟩
  | _, _ => failure

/-- The V2 request behind its command word. -/
def setprop2 (order : ByteOrder) : Parser PropertyMessage := do
  let nameLen ← word order
  if maxWireNameLen < nameLen then failure
  else
    let name ← wireString nameLen
    let valueLen ← word order
    if maxWireValueLen < valueLen then failure
    else
      let value ← wireString valueLen
      return ⟨name, value⟩

def frame (order : ByteOrder) : Parser PropertyMessage := do
  let cmd ← word order
  if cmd = propMsgSetprop then setpropV1
  else if cmd = propMsgSetprop2 then setprop2 order
  else failure

/-! ### The grammar -/

section Grammar

variable {order : ByteOrder} {bs rest : Bytes}

theorem takeBytes_eq_some {n : ℕ} {a : Bytes} :
    takeBytes n bs = some (a, rest) ↔ a.length = n ∧ bs = a ++ rest := by
  rw [takeBytes]
  constructor
  · intro h
    split_ifs at h with hn
    cases h
    exact ⟨List.length_take_of_le hn, (List.take_append_drop n bs).symm⟩
  · rintro ⟨rfl, rfl⟩
    rw [if_pos (by simp), List.take_left, List.drop_left]

theorem parser_bind_eq_some {α β : Type} {p : Parser α} {f : α → Parser β} {b : β} :
    (p >>= f) bs = some (b, rest) ↔ ∃ a mid, p bs = some (a, mid) ∧ f a mid = some (b, rest) := by
  constructor
  · intro h
    obtain ⟨⟨a, mid⟩, hp, hf⟩ := Option.bind_eq_some_iff.mp h
    exact ⟨a, mid, hp, hf⟩
  · rintro ⟨a, mid, hp, hf⟩
    exact Option.bind_eq_some_iff.mpr ⟨(a, mid), hp, hf⟩

theorem parser_pure_eq_some {α : Type} {a b : α} :
    (pure a : Parser α) bs = some (b, rest) ↔ a = b ∧ bs = rest := by
  change some (a, bs) = some (b, rest) ↔ _
  rw [Option.some_inj, Prod.mk.injEq]

theorem word_eq_some {w : ℕ} :
    word order bs = some (w, rest) ↔ w < 2 ^ 32 ∧ bs = u32Bytes order w ++ rest := by
  rw [word, parser_bind_eq_some]
  constructor
  · rintro ⟨a, mid, ha, hw⟩
    obtain ⟨rfl, rfl⟩ := parser_pure_eq_some.mp hw
    obtain ⟨hlen, rfl⟩ := takeBytes_eq_some.mp ha
    exact ⟨ofU32Bytes_lt order a, by rw [u32Bytes_ofU32Bytes order hlen]⟩
  · rintro ⟨hw, rfl⟩
    refine ⟨u32Bytes order w, rest, takeBytes_eq_some.mpr ⟨length_u32Bytes order w, rfl⟩, ?_⟩
    rw [ofU32Bytes_u32Bytes, Nat.mod_eq_of_lt hw]
    rfl

theorem wireString_eq_some {len : ℕ} {s : Str} :
    wireString len bs = some (s, rest) ↔
      s.bytes.length = len ∧ 0 ∉ s.bytes ∧ bs = s.bytes ++ rest := by
  rw [wireString, parser_bind_eq_some]
  constructor
  · rintro ⟨a, mid, ha, hs⟩
    obtain ⟨hlen, rfl⟩ := takeBytes_eq_some.mp ha
    split_ifs at hs with h0
    · cases hs
    cases hu : fromUtf8 a with
    | none => rw [hu] at hs; cases hs
    | some t =>
      rw [hu] at hs
      obtain ⟨rfl, rfl⟩ := parser_pure_eq_some.mp hs
      obtain rfl := bytes_of_fromUtf8 hu
      exact ⟨hlen, by simpa using h0, rfl⟩
  · rintro ⟨hlen, h0, rfl⟩
    refine ⟨s.bytes, rest, takeBytes_eq_some.mpr ⟨hlen, rfl⟩, ?_⟩
    rw [if_neg (by simpa using h0), fromUtf8_bytes]
    rfl

/-- Forcing the last byte of a field to NUL hides it. -/
theorem takeWhile_set_last {buf : Bytes} {n : ℕ} (h : buf.length = n) (hn : 0 < n) :
    (buf.set (n - 1) 0).takeWhile (· != 0) = (buf.take (n - 1)).takeWhile (· != 0) := by
  have hset : buf.set (n - 1) 0 = buf.take (n - 1) ++ [0] := by
    rw [List.set_eq_take_append_cons_drop, if_pos (by omega), List.drop_of_length_le (by omega)]
  rw [hset, List.takeWhile_append]
  split_ifs with hall
  · have heq := (List.takeWhile_prefix (p := fun c : UInt8 => c != 0)).eq_of_length hall
    rw [heq]
    simp
  · rfl

theorem stringFromFixed_eq_ok {buf : Bytes} {s : Str} :
    stringFromFixed buf = .ok s ↔ s.bytes = buf.takeWhile (· != 0) := by
  rw [stringFromFixed]
  constructor
  · intro h
    cases hu : fromUtf8 (buf.takeWhile (· != 0)) with
    | none => rw [hu] at h; cases h
    | some t =>
      rw [hu] at h
      cases h
      exact bytes_of_fromUtf8 hu
  · intro h
    rw [← h, fromUtf8_bytes]

/-- A V2 frame. -/
def v2Frame (order : ByteOrder) (m : PropertyMessage) : Bytes :=
  u32Bytes order propMsgSetprop2 ++ (u32Bytes order m.name.bytes.length ++ (m.name.bytes ++
    (u32Bytes order m.value.bytes.length ++ m.value.bytes)))

/-- The strings a V2 frame may carry. -/
structure V2Carries (m : PropertyMessage) : Prop where
  name_len : m.name.bytes.length ≤ maxWireNameLen
  value_len : m.value.bytes.length ≤ maxWireValueLen
  name_nul : 0 ∉ m.name.bytes
  value_nul : 0 ∉ m.value.bytes

/-- A V1 frame with the given fields. -/
def v1Frame (order : ByteOrder) (nameField valueField : Bytes) : Bytes :=
  u32Bytes order propMsgSetprop ++ (nameField ++ valueField)

/-- The message two V1 fields stand for: what precedes the first NUL of the first 31 name bytes and of
the first 91 value bytes. -/
structure V1Carries (nameField valueField : Bytes) (m : PropertyMessage) : Prop where
  name_len : nameField.length = propNameMax
  value_len : valueField.length = propValueMax
  name : m.name.bytes = (nameField.take (propNameMax - 1)).takeWhile (· != 0)
  value : m.value.bytes = (valueField.take (propValueMax - 1)).takeWhile (· != 0)

theorem setprop2_eq_some {m : PropertyMessage} : setprop2 order bs = some (m, rest) ↔
    V2Carries m ∧ bs = u32Bytes order m.name.bytes.length ++ (m.name.bytes ++
      (u32Bytes order m.value.bytes.length ++ m.value.bytes)) ++ rest := by
  rw [setprop2, parser_bind_eq_some]
  constructor
  · rintro ⟨n, mid, hn, h⟩
    obtain ⟨-, rfl⟩ := word_eq_some.mp hn
    split_ifs at h with hcap
    · cases h
    obtain ⟨name, mid2, hname, h2⟩ := parser_bind_eq_some.mp h
    obtain ⟨rfl, hn0, rfl⟩ := wireString_eq_some.mp hname
    obtain ⟨v, mid3, hv, h3⟩ := parser_bind_eq_some.mp h2
    obtain ⟨-, rfl⟩ := word_eq_some.mp hv
    split_ifs at h3 with hcap'
    · cases h3
    obtain ⟨value, mid4, hvalue, h4⟩ := parser_bind_eq_some.mp h3
    obtain ⟨rfl, hv0, rfl⟩ := wireString_eq_some.mp hvalue
    obtain ⟨rfl, rfl⟩ := parser_pure_eq_some.mp h4
    exact ⟨⟨Nat.not_lt.mp hcap, Nat.not_lt.mp hcap', hn0, hv0⟩, by simp⟩
  · rintro ⟨⟨hn, hv, hn0, hv0⟩, rfl⟩
    have hn' : m.name.bytes.length < 2 ^ 32 := lt_of_le_of_lt hn (by decide)
    have hv' : m.value.bytes.length < 2 ^ 32 := lt_of_le_of_lt hv (by decide)
    refine ⟨_, _, word_eq_some.mpr ⟨hn', List.append_assoc _ _ _⟩, ?_⟩
    rw [if_neg (Nat.not_lt.mpr hn), parser_bind_eq_some]
    refine ⟨m.name, _, wireString_eq_some.mpr ⟨rfl, hn0, List.append_assoc _ _ _⟩, ?_⟩
    rw [parser_bind_eq_some]
    refine ⟨_, _, word_eq_some.mpr ⟨hv', List.append_assoc _ _ _⟩, ?_⟩
    rw [if_neg (Nat.not_lt.mpr hv), parser_bind_eq_some]
    exact ⟨m.value, rest, wireString_eq_some.mpr ⟨rfl, hv0, rfl⟩, rfl⟩

theorem setpropV1_eq_some {m : PropertyMessage} : setpropV1 bs = some (m, rest) ↔
    ∃ nameField valueField, V1Carries nameField valueField m ∧
      bs = nameField ++ valueField ++ rest := by
  rw [setpropV1, parser_bind_eq_some]
  constructor
  · rintro ⟨nf, mid, hn, h⟩
    obtain ⟨hnlen, rfl⟩ := takeBytes_eq_some.mp hn
    obtain ⟨vf, mid2, hv, h2⟩ := parser_bind_eq_some.mp h
    obtain ⟨hvlen, rfl⟩ := takeBytes_eq_some.mp hv
    cases hsn : stringFromFixed (nf.set (propNameMax - 1) 0) with
    | error e => rw [hsn] at h2; cases h2
    | ok name =>
      cases hsv : stringFromFixed (vf.set (propValueMax - 1) 0) with
      | error e => rw [hsn, hsv] at h2; cases h2
      | ok value =>
        rw [hsn, hsv] at h2
        obtain ⟨rfl, rfl⟩ := parser_pure_eq_some.mp h2
        refine ⟨nf, vf, ⟨hnlen, hvlen, ?_, ?_⟩, by simp⟩
        · rw [← takeWhile_set_last hnlen (by decide)]
          exact stringFromFixed_eq_ok.mp hsn
        · rw [← takeWhile_set_last hvlen (by decide)]
          exact stringFromFixed_eq_ok.mp hsv
  · rintro ⟨nf, vf, ⟨hnlen, hvlen, hn, hv⟩, rfl⟩
    rw [← takeWhile_set_last hnlen (by decide)] at hn
    rw [← takeWhile_set_last hvlen (by decide)] at hv
    refine ⟨nf, _, takeBytes_eq_some.mpr ⟨hnlen, List.append_assoc _ _ _⟩, ?_⟩
    rw [parser_bind_eq_some]
    refine ⟨vf, rest, takeBytes_eq_some.mpr ⟨hvlen, rfl⟩, ?_⟩
    rw [stringFromFixed_eq_ok.mpr hn, stringFromFixed_eq_ok.mpr hv]
    rfl

/-- **The frame grammar.** -/
theorem frame_eq_some {m : PropertyMessage} : frame order bs = some (m, rest) ↔
    (V2Carries m ∧ bs = v2Frame order m ++ rest) ∨
      ∃ nameField valueField, V1Carries nameField valueField m ∧
        bs = v1Frame order nameField valueField ++ rest := by
  rw [frame, parser_bind_eq_some]
  constructor
  · rintro ⟨cmd, mid, hcmd, h⟩
    obtain ⟨-, rfl⟩ := word_eq_some.mp hcmd
    split_ifs at h with h1 h2
    · obtain ⟨nf, vf, hc, rfl⟩ := setpropV1_eq_some.mp h
      exact .inr ⟨nf, vf, hc, by rw [v1Frame, h1, List.append_assoc (u32Bytes _ _)]⟩
    · obtain ⟨hc, rfl⟩ := setprop2_eq_some.mp h
      exact .inl ⟨hc, by rw [v2Frame, h2, List.append_assoc (u32Bytes _ propMsgSetprop2)]⟩
    · cases h
  · rintro (⟨hc, rfl⟩ | ⟨nf, vf, hc, rfl⟩)
    · refine ⟨propMsgSetprop2, _, word_eq_some.mpr ⟨by decide, List.append_assoc _ _ _⟩, ?_⟩
      rw [if_neg (by decide), if_pos rfl]
      exact setprop2_eq_some.mpr ⟨hc, rfl⟩
    · refine ⟨propMsgSetprop, _, word_eq_some.mpr ⟨by decide, List.append_assoc _ _ _⟩, ?_⟩
      rw [if_pos rfl]
      exact setpropV1_eq_some.mpr ⟨nf, vf, hc, rfl⟩

end Grammar

/-! ### The handler on a stream -/

/-- A connection whose peer has sent the bytes `rest` and closed, with the messages forwarded so
far. -/
structure Stream where
  rest : Bytes
  forwarded : List PropertyMessage

section Run

variable (reply : PropertyMessage → Except String Bool) (write : Bytes → Except IoError Unit)

/-- Exact reads deliver the stream in order or report its end; `reply` and `write` are what the
service and the peer do. -/
def streamEnv : (o : SocketOp) → Stream → o.Ans × Stream
  | .readExact n, s =>
    if n ≤ s.rest.length then (.ok (s.rest.take n), { s with rest := s.rest.drop n })
    else (.error .unexpectedEof, { s with rest := [] })
  | .writeAll bytes, s => (write bytes, s)
  | .ask m, s => (reply m, { s with forwarded := s.forwarded ++ [m] })

/-- The messages `handle_client` forwards on a stream. -/
def forwards (order : ByteOrder) (bytes : Bytes) : List PropertyMessage :=
  (Process.exec (streamEnv reply write) (handleClient order) ⟨bytes, []⟩).2.forwarded

/-- Handler code that reads what the parser reads, and forwards nothing. -/
def Reads {α : Type} (x : HandlerM α) (p : Parser α) : Prop := ∀ s : Stream,
  (∀ a rest, p s.rest = some (a, rest) →
    Process.exec (streamEnv reply write) x s = (.ok a, { s with rest := rest })) ∧
  (p s.rest = none → ∃ e t, Process.exec (streamEnv reply write) x s = (.error e, t) ∧
    t.forwarded = s.forwarded)

/-- Handler code that forwards what the parser accepts. -/
def Forwards (x : HandlerM Unit) (p : Parser PropertyMessage) : Prop := ∀ s : Stream,
  (Process.exec (streamEnv reply write) x s).2.forwarded =
    s.forwarded ++ ((p s.rest).map Prod.fst).toList

variable {reply write} {α β : Type} {order : ByteOrder}

theorem exec_await (env : (o : SocketOp) → Stream → o.Ans × Stream) (o : SocketOp) (s : Stream) :
    Process.exec env (await o) s = (.ok (env o s).1, (env o s).2) := rfl

theorem reads_readExact (n : ℕ) : Reads reply write (readExact n) (takeBytes n) := by
  intro s
  rw [takeBytes]
  by_cases hn : n ≤ s.rest.length
  · refine ⟨fun a rest h => ?_, fun h => ?_⟩
    · rw [if_pos hn] at h
      cases h
      rw [readExact, Process.exec_bind_ok (exec_await _ (.readExact n) s), streamEnv,
        if_pos hn]
      rfl
    · rw [if_pos hn] at h
      cases h
  · refine ⟨fun a rest h => ?_, fun _ => ?_⟩
    · rw [if_neg hn] at h
      cases h
    · refine ⟨IoError.unexpectedEof.toError, { s with rest := [] }, ?_, rfl⟩
      rw [readExact, Process.exec_bind_ok (exec_await _ (.readExact n) s), streamEnv,
        if_neg hn]
      rfl

theorem reads_pure (a : α) : Reads reply write (pure a) (pure a) := by
  refine fun s => ⟨fun b rest h => ?_, fun h => by cases h⟩
  obtain ⟨rfl, rfl⟩ := parser_pure_eq_some.mp h
  rfl

theorem reads_throw (e : Error) : Reads reply write (throw e : HandlerM α) failure := by
  refine fun s => ⟨fun a rest h => ?_, fun _ => ⟨e, s, rfl, rfl⟩⟩
  cases h

theorem reads_refuse (e : Error) : Reads reply write (refuse order e : HandlerM α) failure := by
  refine fun s => ⟨fun a rest h => ?_, fun _ => ⟨e, s, rfl, rfl⟩⟩
  cases h

theorem parser_bind_of_none {p : Parser α} {q : α → Parser β} {bs : Bytes} (h : p bs = none) :
    (p >>= q) bs = none := by
  change (p bs).bind _ = none
  rw [h]
  rfl

theorem parser_bind_of_some {p : Parser α} {q : α → Parser β} {bs mid : Bytes} {a : α}
    (h : p bs = some (a, mid)) : (p >>= q) bs = q a mid := by
  change (p bs).bind _ = q a mid
  rw [h]
  rfl

theorem parser_bind_eq_none {p : Parser α} {f : α → Parser β} {bs : Bytes}
    (h : (p >>= f) bs = none) : p bs = none ∨ ∃ a mid, p bs = some (a, mid) ∧ f a mid = none := by
  cases hp : p bs with
  | none => exact .inl rfl
  | some r =>
    rw [parser_bind_of_some hp] at h
    exact .inr ⟨r.1, r.2, rfl, h⟩

theorem Reads.bind {x : HandlerM α} {p : Parser α} {f : α → HandlerM β} {q : α → Parser β}
    (h : Reads reply write x p) (hf : ∀ a, Reads reply write (f a) (q a)) :
    Reads reply write (x >>= f) (p >>= q) := by
  intro s
  refine ⟨fun b rest hb => ?_, fun hn => ?_⟩
  · obtain ⟨a, mid, ha, hb⟩ := parser_bind_eq_some.mp hb
    rw [Process.exec_bind_ok ((h s).1 a mid ha)]
    exact (hf a { s with rest := mid }).1 b rest hb
  · rcases parser_bind_eq_none hn with hp | ⟨a, mid, ha, hn⟩
    · obtain ⟨e, t, hx, ht⟩ := (h s).2 hp
      exact ⟨e, t, Process.exec_bind_error hx, ht⟩
    · rw [Process.exec_bind_ok ((h s).1 a mid ha)]
      exact (hf a { s with rest := mid }).2 hn

/-- Answering a failure before giving up reads the same. -/
theorem Reads.catch_refuse {x : HandlerM α} {p : Parser α} (h : Reads reply write x p) :
    Reads reply write (tryCatch x (refuse order)) p := by
  refine fun s => ⟨fun a rest ha => Process.exec_tryCatch_ok ((h s).1 a rest ha), fun hn => ?_⟩
  obtain ⟨e, t, hx, ht⟩ := (h s).2 hn
  exact ⟨e, t, Process.exec_tryCatch_error hx, ht⟩

theorem reads_readU32 : Reads reply write (readU32 order) (word order) :=
  (reads_readExact 4).bind fun _ => reads_pure _

theorem reads_readString (len : ℕ) : Reads reply write (readString len) (wireString len) := by
  rw [readString]
  split_ifs with h0
  · subst h0
    intro s
    have hw : wireString 0 s.rest = some (⟨[], rfl⟩, s.rest) :=
      wireString_eq_some.mpr ⟨rfl, by simp, rfl⟩
    rw [hw]
    refine ⟨fun a rest h => ?_, fun h => by cases h⟩
    cases h
    rfl
  · refine (reads_readExact len).bind fun buf => ?_
    split_ifs with hnul
    · exact reads_throw _
    · cases fromUtf8 buf with
      | none => exact reads_throw _
      | some str => exact reads_pure str

theorem Reads.bind_forwards {x : HandlerM α} {p : Parser α} {f : α → HandlerM Unit}
    {q : α → Parser PropertyMessage} (h : Reads reply write x p)
    (hf : ∀ a, Forwards reply write (f a) (q a)) : Forwards reply write (x >>= f) (p >>= q) := by
  intro s
  cases hp : p s.rest with
  | none =>
    obtain ⟨e, t, hx, ht⟩ := (h s).2 hp
    rw [Process.exec_bind_error hx, parser_bind_of_none hp, ht]
    exact (List.append_nil _).symm
  | some r =>
    rw [Process.exec_bind_ok ((h s).1 r.1 r.2 hp), parser_bind_of_some hp]
    exact hf r.1 { s with rest := r.2 }

theorem forwards_of_reads_failure {x : HandlerM Unit}
    (h : Reads reply write x (failure : Parser Unit)) :
    Forwards reply write x failure := by
  intro s
  obtain ⟨e, t, hx, ht⟩ := (h s).2 rfl
  rw [hx, ht]
  exact (List.append_nil _).symm

/-- The last step: an `ask`, then whatever only writes. -/
theorem forwards_ask {m : PropertyMessage} {f : Except String Bool → HandlerM Unit}
    (hf : ∀ r s, (Process.exec (streamEnv reply write) (f r) s).2.forwarded = s.forwarded) :
    Forwards reply write (await (.ask m) >>= f) (pure m) := by
  intro s
  rw [Process.exec_bind_ok (exec_await _ (.ask m) s), hf]
  rfl

theorem sendResponse_forwarded (code : ℤ) (s : Stream) :
    (Process.exec (streamEnv reply write) (sendResponse order code) s).2.forwarded =
      s.forwarded := by
  rw [sendResponse, Process.exec_bind_ok (exec_await _ (.writeAll (i32Bytes order code)) s),
    streamEnv]
  cases write (i32Bytes order code) <;> rfl

theorem forwards_setprop2 : Forwards reply write (handleSetprop2 order) (setprop2 order) := by
  refine reads_readU32.bind_forwards fun nameLen => ?_
  split_ifs
  · exact forwards_of_reads_failure (reads_refuse _)
  refine (reads_readString nameLen).catch_refuse.bind_forwards fun name => ?_
  refine reads_readU32.catch_refuse.bind_forwards fun valueLen => ?_
  split_ifs
  · exact forwards_of_reads_failure (reads_refuse _)
  refine (reads_readString valueLen).catch_refuse.bind_forwards fun value => ?_
  refine forwards_ask fun r s => ?_
  rcases r with e | _ | _ <;> exact sendResponse_forwarded _ s

theorem forwards_setpropV1 : Forwards reply write handleSetpropV1 setpropV1 := by
  refine (reads_readExact propNameMax).bind_forwards fun nameBuf => ?_
  refine (reads_readExact propValueMax).bind_forwards fun valueBuf => ?_
  cases stringFromFixed (nameBuf.set (propNameMax - 1) 0) with
  | error e => exact forwards_of_reads_failure (reads_throw e)
  | ok name =>
    cases stringFromFixed (valueBuf.set (propValueMax - 1) 0) with
    | error e => exact forwards_of_reads_failure (reads_throw e)
    | ok value => exact forwards_ask fun _ _ => rfl

theorem forwards_handleClient : Forwards reply write (handleClient order) (frame order) := by
  intro s
  rw [handleClient, Process.exec_bind_ok (exec_await _ (.readExact 4) s), streamEnv]
  by_cases hn : 4 ≤ s.rest.length
  · have ht : takeBytes 4 s.rest = some (s.rest.take 4, s.rest.drop 4) := if_pos hn
    have hw : word order s.rest = some (ofU32Bytes order (s.rest.take 4), s.rest.drop 4) :=
      parser_bind_of_some ht
    rw [if_pos hn, frame, parser_bind_of_some hw]
    simp only
    split_ifs
    · exact forwards_setpropV1 _
    · exact forwards_setprop2 _
    · rw [sendResponse_forwarded]
      exact (List.append_nil _).symm
  · have hframe : frame order s.rest = none :=
      parser_bind_of_none (parser_bind_of_none (if_neg hn))
    rw [if_neg hn, hframe]
    exact (List.append_nil _).symm

variable (reply write)

/-- **The decoder accepts exactly the frame grammar.** On every stream the handler forwards at most one
message, and it forwards `m` iff the stream starts with a V2 frame of `m` or with a V1 frame whose
fields stand for `m`; what follows that prefix does not matter. -/
theorem handleClient_forwards_iff (order : ByteOrder) (bytes : Bytes) :
    (forwards reply write order bytes).length ≤ 1 ∧
    ∀ m, m ∈ forwards reply write order bytes ↔
      (V2Carries m ∧ v2Frame order m <+: bytes) ∨
        ∃ nameField valueField, V1Carries nameField valueField m ∧
          v1Frame order nameField valueField <+: bytes := by
  have hf : forwards reply write order bytes = ((frame order bytes).map Prod.fst).toList :=
    forwards_handleClient ⟨bytes, []⟩
  rw [hf]
  refine ⟨by cases frame order bytes <;> simp, fun m => ?_⟩
  have hmem : m ∈ ((frame order bytes).map Prod.fst).toList ↔
      ∃ rest, frame order bytes = some (m, rest) := by
    rw [Option.mem_toList, Option.map_eq_some_iff]
    exact ⟨fun ⟨⟨_, rest⟩, h, he⟩ => ⟨rest, he ▸ h⟩, fun ⟨rest, h⟩ => ⟨(m, rest), h, rfl⟩⟩
  rw [hmem]
  constructor
  · rintro ⟨rest, h⟩
    rcases frame_eq_some.mp h with ⟨hc, rfl⟩ | ⟨nf, vf, hc, rfl⟩
    · exact .inl ⟨hc, List.prefix_append _ _⟩
    · exact .inr ⟨nf, vf, hc, List.prefix_append _ _⟩
  · rintro (⟨hc, rest, rfl⟩ | ⟨nf, vf, hc, rest, rfl⟩)
    · exact ⟨rest, frame_eq_some.mpr (.inl ⟨hc, rfl⟩)⟩
    · exact ⟨rest, frame_eq_some.mpr (.inr ⟨nf, vf, hc, rfl⟩)⟩

end Run

end Service

end RsProperties

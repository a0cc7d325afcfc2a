import Elfupspeed.Proofs.Clients

/-!
# What a message looks like to the others

A message is printed behind a prefix into a buffer that is no larger than the
one it was received into, as a string, and the whole buffer is sent. What
arrives is the text up to the first NUL, so a byte that is 0 ends it early; and
where prefix and payload leave no room for the NUL, it is written out of the
buffer. A payload that fills the buffer has no NUL to be read up to.
-/

namespace Elfupspeed.EpollServer

open Elfupspeed.Lib Elfupspeed.Lib.CString Elfupspeed.Lib.Prog

/-! ## Texts in frames -/

section Texts

variable {client : Fd} {bytes beyond text : List Byte}

/-- `STR_MESSAGE` up to its `%s`. -/
def messagePrefix (client : Fd) : List Byte :=
  ofString "Client #" ++ numeral client ++ ofString ">> "

/-- What is printed behind it. -/
def payloadText (bytes beyond : List Byte) : List Byte :=
  cstr (store cleared bytes ++ beyond)

theorem strMessage_eq :
    strMessage client (store cleared bytes) beyond =
      messagePrefix client ++ payloadText bytes beyond := rfl

theorem payloadText_eq (hbytes : ∀ b ∈ bytes, b ≠ 0) (hlen : bytes.length < bufSize)
    (beyond : List Byte) : payloadText bytes beyond = bytes := by
  have hrest : cleared.drop bytes.length =
      0 :: List.replicate (bufSize - bytes.length - 1) 0 := by
    obtain ⟨n, hn⟩ : ∃ n, bufSize - bytes.length = n + 1 :=
      ⟨bufSize - bytes.length - 1, by omega⟩
    rw [cleared, List.drop_replicate, hn, List.replicate_succ, Nat.add_sub_cancel]
  rw [payloadText, store, hrest, List.append_assoc, List.cons_append,
    cstr_append_nul, cstr_eq_self hbytes]

/-- What is printed ends with the payload's first NUL, or with the cleared
buffer behind it; a payload that has neither is printed as a whole. -/
theorem payloadText_cases (bytes beyond : List Byte) :
    payloadText bytes beyond = cstr bytes ∨
      bufSize ≤ bytes.length ∧ cstr bytes = bytes ∧
        bytes <+: payloadText bytes beyond := by
  by_cases hnul : 0 ∈ bytes
  · obtain ⟨before, behind, rfl⟩ := List.append_of_mem hnul
    refine .inl ?_
    rw [payloadText, store, List.append_assoc, List.append_assoc, List.cons_append,
      cstr_append_nul, cstr_append_nul]
  · have hbytes : ∀ b ∈ bytes, b ≠ 0 := fun b hb hzero => hnul (hzero ▸ hb)
    rcases Nat.lt_or_ge bytes.length bufSize with hlt | hge
    · refine .inl ?_
      rw [payloadText_eq hbytes hlt, cstr_eq_self hbytes]
    · refine .inr ⟨hge, cstr_eq_self hbytes, ?_⟩
      rw [payloadText, store, List.append_assoc, cstr,
        List.takeWhile_append_of_pos (by simpa using hbytes)]
      exact List.prefix_append bytes _

/-- A message has room in its buffer if its prefix has together with the payload
up to the first NUL. -/
theorem length_strMessage_lt_iff (client : Fd) (bytes beyond : List Byte) :
    (strMessage client (store cleared bytes) beyond).length < bufSize ↔
      (messagePrefix client).length + (cstr bytes).length < bufSize := by
  rw [strMessage_eq, List.length_append]
  rcases payloadText_cases bytes beyond with heq | ⟨hlong, heq, hprefix⟩
  · rw [heq]
  · have hle := hprefix.length_le
    rw [heq]
    omega

end Texts

/-! ## A broadcast -/

section Broadcast

variable {a : Answers} {s : Server} {client it : Fd} {bytes frame : List Byte}

end Broadcast

/-- Two clients, the second of which has written something. -/
def twoClients (bytes : List Byte) : Server :=
  { start 3 [0, 1, 2, 4] with
    clientsList := [5, 6]
    conns := Function.update (fun _ => none) 6 (some { rcv := bytes }) }

end Elfupspeed.EpollServer

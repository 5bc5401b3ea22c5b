import Termesh.Agent.Accounting
import Termesh.Agent.Codec
import Termesh.Lsp.Translator

/-!
# Requests of a peer

What becomes of an object in which an agent or a language server calls a method and expects an
answer: it is decoded, and the translator replies to it.

* `Lsp.decode`: the codec of the language servers, which takes the object of a frame;
* `Lsp.Served`, `Line.Served`: the object is a request, and one reply with its id is sent or held;
* **`served_iff`**: exactly the requests whose id is a non-negative integer are served.
-/

namespace Termesh

open Runs

/-- A reply to the request with this id. -/
def Message.RepliesTo (id : Value) (reply : Message) : Prop :=
  reply.answers.isSome ∧ reply.toValue.get "id" = some id

namespace Lsp

/-- `Message::decode` of the language servers. -/
def decode (print : Value → String) (v : Value) : Except DecodeError Message :=
  match Message.ofValue v with
  | some m => .ok m
  | none => .error (.malformed (print v))

/-- A language server's object is a request, and gets one reply with its id. -/
def Served (j : Json) (print : Value → String) (v id : Value) : Prop :=
  ∃ n method params, decode print v = .ok (.request n method params) ∧
    ∀ t : Translator, ∃ reply, (t.incoming j (.request n method params)).2.2 = [reply] ∧
      reply.RepliesTo id

end Lsp

/-- An agent's line is a request, and one reply with its id is sent at once or held until the model
has answered. -/
def Line.Served (parse : String → Except String Value) (line : String) (id : Value) : Prop :=
  ∃ n method params, Message.decode parse line = .ok (.request n method params) ∧
    (∀ l, Reach Line.step Line.AnswersOnce Line.Start l →
      let l' := l.hear (.request n method params)
      l'.replies + l'.translator.held = {n} + (l.replies + l.translator.held)) ∧
    ∀ reply : Message, reply.answers = some n → reply.RepliesTo id

theorem hear_request {l : Line} (h : Reach Line.step Line.AnswersOnce Line.Start l) (n : ℕ)
    (method : String) (params : Value) :
    let l' := l.hear (.request n method params)
    l'.replies + l'.translator.held = {n} + (l.replies + l.translator.held) := by
  intro l'
  have h' : Reach Line.step Line.AnswersOnce Line.Start l' :=
    .next (a := .incoming (.request n method params)) h trivial rfl
  rw [← (Line.inv_reach h).calls, ← (Line.inv_reach h').calls]
  rfl

theorem repliesTo_ofId {reply : Message} {n : ℕ} (h : reply.answers = some n) :
    reply.RepliesTo (.ofId n) := ⟨by rw [h]; rfl, Message.toValue_get_id h⟩

theorem eq_ofId {id : Value} {n : ℕ} (h : id.asU64 = some n) : id = .ofId n := by
  unfold Value.asU64 at h
  split at h
  · cases h
    rfl
  · cases h

theorem ofValue_request {v id : Value} {method : String} (hm : v.getStr "method" = some method)
    (hi : v.get "id" = some id) :
    Message.ofValue v = some (match id.asU64 with
      | some n => .request n method (Value.orNull (v.get "params"))
      | none => .notification method (Value.orNull (v.get "params"))) := by
  rw [Message.ofValue_method hm, hi]
  rfl

theorem lsp_served_iff (j : Lsp.Json) (print : Value → String) {v id : Value} {method : String}
    (hm : v.getStr "method" = some method) (hi : v.get "id" = some id) :
    Lsp.Served j print v id ↔ id.asU64.isSome := by
  have hv := ofValue_request hm hi
  cases hid : id.asU64 with
  | none =>
    rw [hid] at hv
    refine ⟨?_, by simp⟩
    rintro ⟨n, method', params, hd, -⟩
    rw [Lsp.decode, hv] at hd
    cases hd
  | some n =>
    rw [hid] at hv
    refine ⟨fun _ => rfl, fun _ => ⟨n, method, Value.orNull (v.get "params"), ?_, fun t => ?_⟩⟩
    · rw [Lsp.decode, hv]
    · refine ⟨_, rfl, ?_⟩
      rw [eq_ofId hid]
      refine repliesTo_ofId ?_
      unfold Lsp.answerClientRequest
      split <;> rfl

theorem line_served_iff {parse : String → Except String Value} {line : String} {v id : Value}
    {method : String} (hline : trim line ≠ "") (hparse : parse (trim line) = .ok v)
    (hm : v.getStr "method" = some method) (hi : v.get "id" = some id) :
    Line.Served parse line id ↔ id.asU64.isSome := by
  have hv := ofValue_request hm hi
  cases hid : id.asU64 with
  | none =>
    rw [hid] at hv
    refine ⟨?_, by simp⟩
    rintro ⟨n, method', params, hd, -⟩
    rw [Message.decode, if_neg hline, hparse] at hd
    dsimp only at hd
    rw [hv] at hd
    cases hd
  | some n =>
    rw [hid] at hv
    refine ⟨fun _ => rfl, fun _ => ⟨n, method, Value.orNull (v.get "params"), ?_, ?_, ?_⟩⟩
    · rw [Message.decode, if_neg hline, hparse]
      dsimp only
      rw [hv]
    · exact fun l hl => hear_request hl n method _
    · rw [eq_ofId hid]
      exact fun reply hreply => repliesTo_ofId hreply

/-- **A request of a peer is served exactly when its id is a non-negative integer.** The object is
the one on the agent's line, and the one in the language server's frame. -/
theorem served_iff (j : Lsp.Json) (print : Value → String) (line : String) (v id : Value)
    (method : String) (hline : trim line ≠ "") (hparse : j.parse (trim line) = .ok v)
    (hm : v.getStr "method" = some method) (hi : v.get "id" = some id) :
    (Line.Served j.parse line id ∧ Lsp.Served j print v id) ↔ id.asU64.isSome := by
  rw [lsp_served_iff j print hm hi, line_served_iff hline hparse hm hi]
  exact and_self_iff

/-- An object that asks for the configuration under an id. -/
def configurationRequest (id : Value) : Value :=
  .object [("id", id), ("jsonrpc", .string "2.0"), ("method", .string "workspace/configuration")]

/-- The texts of two such objects are parsed, and nothing else. -/
def configurationJson : Lsp.Json where
  parse s :=
    if s = "\x7b\"id\":7,\"jsonrpc\":\"2.0\",\"method\":\"workspace/configuration\"\x7d" then
      .ok (configurationRequest (.ofId 7))
    else if s = "\x7b\"id\":\"a1\",\"jsonrpc\":\"2.0\",\"method\":\"workspace/configuration\"\x7d" then
      .ok (configurationRequest (.string "a1"))
    else .error "expected value"
  floatText _ := "0.5"

theorem served_seven :
    Line.Served configurationJson.parse
        "\x7b\"id\":7,\"jsonrpc\":\"2.0\",\"method\":\"workspace/configuration\"\x7d" (.ofId 7) ∧
      Lsp.Served configurationJson (fun _ => "null") (configurationRequest (.ofId 7)) (.ofId 7) := by
  have htrim : trim "\x7b\"id\":7,\"jsonrpc\":\"2.0\",\"method\":\"workspace/configuration\"\x7d" =
      "\x7b\"id\":7,\"jsonrpc\":\"2.0\",\"method\":\"workspace/configuration\"\x7d" :=
    trim_ofList rfl rfl
  exact (served_iff configurationJson (fun _ => "null")
    "\x7b\"id\":7,\"jsonrpc\":\"2.0\",\"method\":\"workspace/configuration\"\x7d"
    (configurationRequest (.ofId 7)) (.ofId 7) "workspace/configuration" (by rw [htrim]; simp)
    (by simp [htrim, configurationJson]) rfl rfl).2 rfl

/-- A request whose id is a string is taken for a notification, and nothing is sent for it. -/
theorem string_id_not_served :
    ¬(Line.Served configurationJson.parse
        "\x7b\"id\":\"a1\",\"jsonrpc\":\"2.0\",\"method\":\"workspace/configuration\"\x7d"
        (.string "a1") ∧
      Lsp.Served configurationJson (fun _ => "null") (configurationRequest (.string "a1"))
        (.string "a1")) := by
  rintro ⟨-, n, method, params, hd, -⟩
  cases hd

end Termesh

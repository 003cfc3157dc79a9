import InlineBinding.Build
import InlineBinding.Markup.Reader

/-!
# Series of documents

An attacher goes from one transform to the next with the marks of the last document in it, and a
reader keeps the recovery of the last one.  Neither is looked at before it is replaced, so a series
of calls answers what each call would answer on its own, whatever has failed before.
-/
namespace InlineBinding

namespace Binding.Attacher

/-- An attacher of the same construction that has not seen a document. -/
def fresh (a : Attacher) : Attacher := { a with marks := [] }

end Binding.Attacher

namespace Transform
open Binding

/-! ## Transforms that share an attacher -/

/-- Options as a caller hands them over. -/
inductive Given where
  | options (o : Options)
  | settings (s : Setting)

def Given.resolve : Given → Except Options.Failure Options
  | options o => .ok o
  | settings s => Options.resolve s

structure Call where
  given : Given
  document : Text

structure Answer where
  result : Except Build.Failure Text
  events : List Event

/-- Options that cannot be resolved are a failure before the attacher is touched. -/
def Call.run (c : Call) (a : Attacher) : Answer × Attacher :=
  match c.given.resolve with
  | .error f => (⟨.error (.options f), []⟩, a)
  | .ok o =>
    let outcome := transform o a c.document
    (⟨outcome.result.mapError .binding, outcome.events⟩, outcome.attacher)

/-- The answers to a series of calls, and the attacher as it is left behind. -/
def session : Attacher → List Call → List Answer × Attacher
  | a, [] => ([], a)
  | a, c :: cs =>
    let (answer, a) := c.run a
    let (answers, a) := session a cs
    (answer :: answers, a)

theorem withMarks_fresh (a : Attacher) (clippings : List Text.Clipping) :
    withMarks a.fresh clippings = withMarks a clippings := rfl

theorem transform_fresh (o : Options) (a : Attacher) (document : Text) :
    transform o a.fresh document = transform o a document := by
  unfold transform
  simp only [withMarks_fresh]

theorem attacher_transform (o : Options) (a : Attacher) (document : Text) :
    (transform o a document).attacher = withMarks a ((shieldOf o).shield document).2 := by
  unfold transform
  rcases (shieldOf o).shield document with ⟨shielded, clippings⟩
  dsimp only
  split
  · rfl
  · split <;> rfl

/-- A call makes no difference to what an attacher is apart from its marks. -/
theorem Call.fresh_run (c : Call) (a : Attacher) : (c.run a).2.fresh = a.fresh := by
  rw [run]
  split
  · rfl
  · dsimp only
    rw [attacher_transform]
    rfl

theorem Call.answer_fresh (c : Call) (a : Attacher) : (c.run a.fresh).1 = (c.run a).1 := by
  rw [run, run]
  split
  · rfl
  · dsimp only
    rw [transform_fresh]

theorem answers_session (a : Attacher) (cs : List Call) :
    (session a cs).1 = cs.map fun c => (c.run a.fresh).1 := by
  induction cs generalizing a with
  | nil => rfl
  | cons c cs ih =>
    rw [session, List.map_cons, c.answer_fresh, ← c.fresh_run a]
    exact congrArg _ (ih (c.run a).2)

end Transform

namespace Markup

/-! ## Documents for one reader -/

/-- What a reader can be asked for. -/
inductive Request where
  | parse (markup : Text)
  | fragment (markup : Text)
  | print (xhtml : Bool) (t : Tree)

inductive Reply where
  | tree (t : Except Failure Tree)
  | text (t : Text)

namespace Reader

def reply (r : Reader) : Request → Reply × Reader
  | .parse markup =>
    let (t, r) := r.parse markup
    (.tree t, r)
  | .fragment markup => (.tree (r.fragment markup), r)
  | .print xhtml t => (.text (r.print xhtml t), r)

/-- The reader after a series of requests. -/
def after (r : Reader) (qs : List Request) : Reader := qs.foldl (fun r q => (r.reply q).2) r

def replies : Reader → List Request → List Reply
  | _, [] => []
  | r, q :: qs => (r.reply q).1 :: replies (r.reply q).2 qs

theorem collapsing_reply (r : Reader) (q : Request) : (r.reply q).2.collapsing = r.collapsing := by
  cases q <;> rfl

theorem collapsing_after (r : Reader) (qs : List Request) :
    (r.after qs).collapsing = r.collapsing := by
  induction qs generalizing r with
  | nil => rfl
  | cons q qs ih => exact (ih (r.reply q).2).trans (r.collapsing_reply q)

theorem replies_append (r : Reader) (qs ps : List Request) :
    r.replies (qs ++ ps) = r.replies qs ++ (r.after qs).replies ps := by
  induction qs generalizing r with
  | nil => rfl
  | cons q qs ih => exact congrArg ((r.reply q).1 :: ·) (ih (r.reply q).2)

/-- The next document replaces all that is left of the last one. -/
theorem reply_parse (r : Reader) (markup : Text) :
    r.reply (.parse markup) = (start r.collapsing).reply (.parse markup) := rfl

theorem replies_parse (r : Reader) (markup : Text) (qs : List Request) :
    r.replies (.parse markup :: qs) = (start r.collapsing).replies (.parse markup :: qs) := by
  rw [replies, replies, reply_parse]

end Reader
end Markup

/-- Nothing goes over from one document to the next. -/
theorem Transform.answers_alone (a : Binding.Attacher) (calls : List Transform.Call)
    (collapsing : Bool) (earlier later : List Markup.Request) (markup : Text) :
    (Transform.session a calls).1 = calls.map (fun c => (c.run a.fresh).1) ∧
      (Markup.Reader.start collapsing).replies (earlier ++ .parse markup :: later) =
        (Markup.Reader.start collapsing).replies earlier ++
          (Markup.Reader.start collapsing).replies (.parse markup :: later) := by
  refine ⟨Transform.answers_session a calls, ?_⟩
  rw [Markup.Reader.replies_append, Markup.Reader.replies_parse, Markup.Reader.collapsing_after]
  rfl

end InlineBinding

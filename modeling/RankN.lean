import RankN.Main
import RankN.Proofs.Principal
import RankN.Proofs.Escape
import RankN.Proofs.Soundness
import RankN.Proofs.Reachable
import RankN.Proofs.Evolution
import RankN.Proofs.WriteOnce
import RankN.Proofs.Totality
import RankN.Proofs.Unification
import RankN.Proofs.Blame
import RankN.Proofs.Errors
import RankN.Proofs.Restamping
import RankN.Proofs.Twins
import RankN.Proofs.History
import RankN.Proofs.Labels
import RankN.Proofs.Mirror
import RankN.Proofs.Following
import RankN.Proofs.Renaming
import RankN.Proofs.Rigid
import RankN.Proofs.Matching
import RankN.Proofs.Instances
import RankN.Proofs.Lexical
import RankN.Proofs.Schedules
import RankN.Proofs.Relabelling
import RankN.Proofs.Equating
import RankN.Proofs.Determinacy
import RankN.Proofs.Courses
import RankN.Proofs.Attainable
import RankN.Proofs.Symmetry
import RankN.Proofs.Outline
import RankN.Proofs.Transparency
import RankN.Proofs.Likeness
import RankN.Proofs.FullUnification
import RankN.Proofs.Shortcut
import RankN.Proofs.Normalization
import RankN.Proofs.Pairing
import RankN.Proofs.Phrases
import RankN.Proofs.RoundTrip
import RankN.Proofs.FirstObstacle
import RankN.Proofs.PrunedSubstitution
import RankN.Proofs.Spines
import RankN.Proofs.FiniteScopes
import RankN.Proofs.Shadowing

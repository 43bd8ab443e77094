import PubSub.Script.Catalogue
import PubSub.Script.Run
import PubSub.Proofs.TableExpansion
import PubSub.Proofs.RosterLog
import PubSub.Proofs.Registration
import PubSub.Proofs.Conduct
import PubSub.Proofs.Effects
import PubSub.Proofs.Run
import PubSub.Proofs.Lawful
import PubSub.Proofs.Protocol
import PubSub.Proofs.Compliance
import PubSub.Proofs.Grounds
import PubSub.Proofs.Names
import PubSub.Proofs.LockTable
import PubSub.Proofs.LockUse
import PubSub.Proofs.Exclusion
import PubSub.Proofs.Life
import PubSub.Proofs.Story
import PubSub.Proofs.Whereabouts
import PubSub.Proofs.Fate
import PubSub.Proofs.Posts
import PubSub.Proofs.Reports
import PubSub.Proofs.Resolution
import PubSub.Proofs.Agreement
import PubSub.Proofs.WorkerPools
import PubSub.Proofs.Views
import PubSub.Proofs.OneThread
import PubSub.Proofs.ConcurrentPosts
import PubSub.Proofs.Overlap
import PubSub.Proofs.DeclarationRuns
import PubSub.Proofs.FirstUse
import PubSub.Proofs.RootPlace
import PubSub.Proofs.Submissions
import PubSub.Proofs.Tours
import PubSub.Proofs.Storage
import PubSub.Proofs.Completion
import PubSub.Proofs.Refusals
import PubSub.Proofs.AllOrNothing
import PubSub.Proofs.NestedPanics
import PubSub.Proofs.ErrorChains
import PubSub.Proofs.Shutdowns
import PubSub.Proofs.Listings

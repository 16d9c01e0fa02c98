import AhoCorasick.Footprint
import AhoCorasick.Main
import AhoCorasick.Match.Fields
import AhoCorasick.Json.Reader
import AhoCorasick.Session
import AhoCorasick.Text.Inspection
import AhoCorasick.Proofs.Automaton
import AhoCorasick.Proofs.Occurrences
import AhoCorasick.Proofs.Cursor
import AhoCorasick.Proofs.Refusal
import AhoCorasick.Proofs.Places
import AhoCorasick.Proofs.Layouts
import AhoCorasick.Proofs.Building
import AhoCorasick.Proofs.Limits
import AhoCorasick.Proofs.Bounds
import AhoCorasick.Proofs.Log
import AhoCorasick.Proofs.Continuations
import AhoCorasick.Listing
import AhoCorasick.Proofs.Sessions
import AhoCorasick.Proofs.Fields
import AhoCorasick.Proofs.Objects
import AhoCorasick.Proofs.Shapes
import AhoCorasick.Proofs.Tokens
import AhoCorasick.Proofs.Written
import AhoCorasick.Proofs.RoundTrip
import AhoCorasick.Proofs.Footprint
import AhoCorasick.Proofs.Reordering
import AhoCorasick.Proofs.Literals
import AhoCorasick.Proofs.Inspection
import AhoCorasick.Proofs.Stopping
import AhoCorasick.Proofs.Searching
import AhoCorasick.Proofs.Fallbacks
import AhoCorasick.Proofs.Rooms
import AhoCorasick.Proofs.Branches
import AhoCorasick.Proofs.Scan
import AhoCorasick.Proofs.Agreement
import AhoCorasick.Proofs.Tables
import AhoCorasick.Proofs.BreadthFirst

import Denoise.Activity
import Denoise.Batch
import Denoise.Log
import Denoise.Main
import Denoise.Worker
import Denoise.Proofs.Frames
import Denoise.Proofs.Intake
import Denoise.Proofs.Sizes
import Denoise.Proofs.Feeding
import Denoise.Proofs.Trailing
import Denoise.Proofs.Session
import Denoise.Proofs.Streaming
import Denoise.Proofs.Accounting
import Denoise.Proofs.Protocol
import Denoise.Proofs.Promotion
import Denoise.Proofs.Delivery
import Denoise.Proofs.Line
import Denoise.Proofs.Serving
import Denoise.Device
import Denoise.Proofs.Workspace
import Denoise.Proofs.Device
import Denoise.Proofs.Parallel
import Denoise.Proofs.Candidate
import Denoise.Proofs.Reset
import Denoise.Proofs.Profile
import Denoise.Proofs.History
import Denoise.Checked
import Denoise.Checked.Bins
import Denoise.Proofs.Checked
import Denoise.Proofs.Checked.Bins
import Denoise.Checked.Device
import Denoise.Proofs.Checked.Workspace
import Denoise.Proofs.Checked.Device
import Denoise.Proofs.Values
import Denoise.Proofs.Bounds
import Denoise.Proofs.Tightening
import Denoise.Proofs.Doubles
import Denoise.Proofs.Narrowing
import Denoise.Proofs.Passages
import Denoise.Proofs.Gain
import Denoise.Proofs.Decimal.Separation
import Denoise.Proofs.Decimal.Shortest
import Denoise.Proofs.Decimal.Reading
import Denoise.Proofs.Settings.Numerals
import Denoise.Proofs.Settings.Values
import Denoise.Proofs.Settings.RoundTrip
import Denoise.Proofs.Settings.Words
import Denoise.Proofs.Wideband
import Denoise.Proofs.Centre
import Denoise.Proofs.Retraining
import Denoise.Proofs.Ranks
import Denoise.Proofs.Roots
import Denoise.Proofs.Spreads
import Denoise.Proofs.Statistics
import Denoise.Proofs.Threshold
import Denoise.Proofs.Broken
import Denoise.Proofs.Trust
import Denoise.Proofs.Freezing
import Denoise.Proofs.Rounds
import Denoise.Proofs.Exact
import Denoise.Proofs.Overlap
import Denoise.Proofs.Reconstruction
import Denoise.Proofs.Meter
import Denoise.Proofs.Smoothing
import Denoise.Proofs.Tainted
import Denoise.Proofs.Filling
import Denoise.Proofs.Convergents
import Denoise.Proofs.Newest
import Denoise.Proofs.Log.Fates
import Denoise.Proofs.Log.Cuts
import Denoise.Proofs.Recordings

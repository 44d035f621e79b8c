import Stegosafe.Proof.Authenticity
import Stegosafe.Proof.Ciphertexts
import Stegosafe.Proof.Density
import Stegosafe.Proof.Distortion
import Stegosafe.Proof.EdgeMargin
import Stegosafe.Proof.FailOpen
import Stegosafe.Proof.Format
import Stegosafe.Proof.Health
import Stegosafe.Proof.Layers
import Stegosafe.Proof.Limits
import Stegosafe.Proof.Linear
import Stegosafe.Proof.MacEncoding
import Stegosafe.Proof.NonceUse
import Stegosafe.Proof.Oblivious
import Stegosafe.Proof.Orders
import Stegosafe.Proof.Pairs
import Stegosafe.Proof.Pipeline
import Stegosafe.Proof.Placement
import Stegosafe.Proof.Recovery
import Stegosafe.Proof.Room
import Stegosafe.Proof.Separation
import Stegosafe.Proof.Sessions
import Stegosafe.Proof.Sources
import Stegosafe.Proof.Tally
import Stegosafe.Proof.Untouched
